import TpcBank.SoleLeaders

/-! The balances of a leader and those of a bank that is ahead of them: the client has decided
to commit a transaction, and the decision is still on its way to the leader. -/
namespace TpcBank
open Ledger Reservation

namespace Network

variable {c : Constants} {L : Leaders c} {book : ℤ → Request} {n n' : Network} {e : Event}
  {k : ℤ} {fs : FileSystem} {input : Input} {r : Handled} {bank bank' : ℤ → ℤ}

/-- The client has decided to commit a transaction that a server has prepared, and the decision
is still on its way to the server. -/
def Owed (n : Network) (p : ℤ) (r : TransferReq) : Prop :=
  (∃ e, (n.servers p).wal.pending r.tid = some e ∧ e.txn = r.txn) ∧ n.Decided true r.tid

/-- The clients of a cluster that a transaction concerns. -/
abbrev clientsIn (c : Constants) (k : ℤ) (r : TransferReq) : Finset ℤ := c.items k r.txn

/-- For the clients of a cluster, a bank is ahead of the balances of the leader by what is
owed to it. -/
abbrev Tracked (L : Leaders c) (n : Network) (bank : ℤ → ℤ) (k : ℤ) : Prop :=
  Tracks (clientsIn c k) (fun r => r.posting.effect) {x | c.getClusterIdFromClientId x = k}
    (n.Owed (L.leader k)) (n.servers (L.leader k)).balances bank

theorem clientsIn_subset (r : TransferReq) :
    (clientsIn c k r : Set ℤ) ⊆ {x | c.getClusterIdFromClientId x = k} :=
  fun _ hx => (Constants.mem_items.mp hx).2

theorem Owed.inFlight {p : ℤ} {request : TransferReq} (h : n.Owed p request) :
    (n.servers p).InFlight c request := .inl h.1

/-- The servers send no decision. -/
theorem Decided.before {isCommit : Bool} {tid : ℤ} (h : n'.Decided isCommit tid)
    (hstep : Stepped c n e n') (he : ∀ dst request, e ≠ .call dst request) :
    n.Decided isCommit tid := by
  obtain ⟨dst, hs⟩ := h
  rcases hstep.client_before hs with hold | ⟨heq, -⟩
  · exact ⟨dst, hold⟩
  · exact absurd heq (he _ _)

/-- What is owed to a server depends on what it has prepared. -/
theorem Owed.congr {p : ℤ} (request : TransferReq) (hstep : Stepped c n e n')
    (he : ∀ dst request, e ≠ .call dst request)
    (hpending : (n'.servers p).wal.pending request.tid = (n.servers p).wal.pending request.tid) :
    n'.Owed p request ↔ n.Owed p request := by
  unfold Owed
  rw [hpending]
  exact and_congr_right fun _ => ⟨fun h => h.before hstep he, fun h => h.step hstep⟩

/-- Only the decision on a transaction, or a commit of the leader, moves what is tracked. -/
theorem Tracked.same (h : Tracked L n bank k) (hstep : Stepped c n e n')
    (he : ∀ dst request, e ≠ .call dst request)
    (hserver : n'.servers (L.leader k) = n.servers (L.leader k))
    (hbank : ∀ x, c.getClusterIdFromClientId x = k → bank' x = bank x) : Tracked L n' bank' k := by
  refine h.frame clientsIn_subset (fun r => Owed.congr _ hstep he ?_) ?_ hbank
  · rw [hserver]
  · intro x _
    rw [hserver]

/-- A request in flight at the leader of a cluster, as a reservation of clients of the cluster. -/
theorem SoleLed.sound (h : SoleLed c L book n) (hrouted : Routed c n) (hlow : 1 ≤ k)
    (hhigh : k ≤ c.numClusters) :
    Sound (clientsIn c k) Server.takes {x | c.getClusterIdFromClientId x = k}
      ((n.servers (L.leader k)).InFlight c) (n.servers (L.leader k)).locks
      (n.servers (L.leader k)).balances := by
  have hreserved := (h.lone _ (L.leads hlow hhigh)).reserved
  unfold Server.Reserved at hreserved
  rwa [hrouted.clusterId, L.member k hlow hhigh] at hreserved

/-- A transaction that is prepared at a leader concerns its cluster. -/
theorem SoleLed.concerns (h : SoleLed c L book n) (hrouted : Routed c n) (hlow : 1 ≤ k)
    (hhigh : k ≤ c.numClusters) {tid : ℤ} {w : WALEntry}
    (hw : (n.servers (L.leader k)).wal.pending tid = some w) :
    book tid = .tpcPrepare ⟨w.txn, tid⟩ ∧ (c.getClusterIdFromClientId w.txn.sender = k ∨
      c.getClusterIdFromClientId w.txn.receiver = k) := by
  obtain ⟨hbook, -, hone⟩ := (h.lone _ (L.leads hlow hhigh)).prepared tid w hw
  refine ⟨hbook, ?_⟩
  unfold Server.inCluster at hone
  simp only [Server.isClientInCluster_iff, hrouted.clusterId, L.member k hlow hhigh] at hone
  by_contra hnone
  rw [not_or] at hnone
  rw [if_neg hnone.1, if_neg hnone.2] at hone
  omega

theorem movedBalances_posting (balances : ℤ → ℤ) (r : TransferReq) (x : ℤ) :
    Server.movedBalances balances r.txn x = balances x + r.posting.effect x :=
  movedBalances_eq balances ⟨r.tid, 0, 0, r.txn, .intra, .committed⟩ x

theorem posting_effect_of_notMem {request : TransferReq} {x : ℤ}
    (hx : x ≠ request.txn.sender ∧ x ≠ request.txn.receiver) : request.posting.effect x = 0 :=
  Posting.effect_of_ne hx.1.symm hx.2.symm

theorem posting_effect_of_cluster {request : TransferReq} {x : ℤ}
    (hcluster : c.getClusterIdFromClientId x = k) (hx : x ∉ clientsIn c k request) :
    request.posting.effect x = 0 := by
  apply posting_effect_of_notMem
  constructor
  · rintro rfl
    exact hx (Constants.mem_items.mpr ⟨.inl rfl, hcluster⟩)
  · rintro rfl
    exact hx (Constants.mem_items.mpr ⟨.inr rfl, hcluster⟩)

/-- The balances after a decision, as a payment. -/
theorem clusterBalances_posting (balances : ℤ → ℤ) (request : TransferReq) (x : ℤ) :
    (x ∈ clientsIn c k request → Server.clusterBalances c k balances request.txn x =
      balances x + request.posting.effect x) ∧
    (x ∉ clientsIn c k request → Server.clusterBalances c k balances request.txn x =
      balances x) := by
  unfold Server.clusterBalances
  constructor
  · intro hx
    rw [if_pos (Constants.mem_items.mp hx).2, movedBalances_posting]
  · intro hx
    split_ifs with hcluster
    · rw [movedBalances_posting, posting_effect_of_cluster hcluster hx, add_zero]
    · rfl

/-- The leader of a cluster acts, and commits no transfer. -/
theorem Tracked.handled (h : Tracked L n bank k) (hled : SoleLed c L book n)
    (hprov : Provenance c n) (hlow : 1 ≤ k) (hhigh : k ≤ c.numClusters)
    (hstep : Stepped c n e n') (he : ∀ dst request, e ≠ .call dst request)
    (hacts : Acts n e (L.leader k) fs input) (hserver : n'.servers (L.leader k) = r.server)
    (heffect : (n.servers (L.leader k)).LeaderEffect c input r.response r.server.wal.pending
      r.server.balances)
    (hno : ∀ request, input = .request (.transfer request) →
      r.response ≠ Server.transferRes true request.tid)
    (hundecided : ∀ request, input = .request (.tpcPrepare request) → ¬ n.Decided true request.tid)
    (honce : ∀ tid w, (n.servers (L.leader k)).wal.pending tid = some w → n.Decided false tid →
      ¬ n.Decided true tid) : Tracked L n' bank k := by
  have hpending : (n'.servers (L.leader k)).wal.pending = r.server.wal.pending := by rw [hserver]
  have hbalances : (n'.servers (L.leader k)).balances = r.server.balances := by rw [hserver]
  have hsame : ∀ (hb : r.server.balances = (n.servers (L.leader k)).balances)
      (hp : ∀ tid, r.server.wal.pending tid = (n.servers (L.leader k)).wal.pending tid ∨
        ¬ n.Decided true tid), Tracked L n' bank k := by
    intro hb hp
    refine h.frame clientsIn_subset (fun request => ?_) (fun x _ => ?_) fun _ _ => rfl
    · rcases hp request.tid with heq | hnot
      · exact Owed.congr _ hstep he (by rw [hpending, heq])
      · exact iff_of_false (fun ho => hnot (ho.2.before hstep he)) fun ho => hnot ho.2
    · rw [hbalances, hb]
  generalize r.server.wal.pending = pending, r.server.balances = balances,
    r.response = response at *
  cases heffect with
  | kept => exact hsame rfl fun _ => .inl rfl
  | committed request => exact absurd rfl (hno request rfl)
  | prepared request =>
    refine hsame rfl fun tid => ?_
    by_cases htid : tid = request.tid
    · subst htid
      exact .inr (hundecided request rfl)
    · exact .inl (Function.update_of_ne htid _ _)
  | decided isCommit request response w hw =>
    have hdecided := hprov.issued_decision hacts rfl
    cases isCommit with
    | false =>
      refine hsame rfl fun tid => ?_
      by_cases htid : tid = request.tid
      · subst htid
        exact .inr (honce _ w hw hdecided)
      · exact .inl (Function.update_of_ne htid _ _)
    | true =>
      have howed : n.Owed (L.leader k) ⟨w.txn, request.tid⟩ := ⟨⟨w, hw, rfl⟩, hdecided⟩
      have hcluster : (n.servers (L.leader k)).clusterId = k := by
        rw [hprov.routed.clusterId, L.member k hlow hhigh]
      refine h.pay (hled.sound hprov.routed hlow hhigh) (fun _ ho => ho.inFlight) howed ?_ ?_ ?_
      · intro request'
        by_cases htid : request'.tid = request.tid
        · refine iff_of_false ?_ ?_
          · rintro ⟨⟨w', hw', -⟩, -⟩
            rw [hpending, htid, Function.update_self] at hw'
            cases hw'
          · rintro ⟨⟨⟨w', hw', htxn⟩, -⟩, hne⟩
            rw [htid, hw] at hw'
            obtain rfl := Option.some.inj hw'
            obtain ⟨txn, tid⟩ := request'
            exact hne (by rw [← htid, htxn])
        · have hcongr := Owed.congr (p := L.leader k) request' hstep he
            (by rw [hpending, Function.update_of_ne htid])
          rw [hcongr, and_iff_left]
          rintro rfl
          exact htid rfl
      · intro x hx
        rw [hbalances, if_pos rfl, hcluster]
        exact (clusterBalances_posting _ ⟨w.txn, request.tid⟩ x).1 hx
      · intro x hx
        rw [hbalances, if_pos rfl, hcluster]
        exact (clusterBalances_posting _ ⟨w.txn, request.tid⟩ x).2 hx

/-- What a request in flight takes from its sender is there in the bank, too. -/
theorem Tracked.covered (h : Tracked L n bank k) (hled : SoleLed c L book n)
    (hrouted : Routed c n) (hlow : 1 ≤ k) (hhigh : k ≤ c.numClusters) {request : TransferReq}
    (hin : (n.servers (L.leader k)).InFlight c request) (hnew : ¬ n.Owed (L.leader k) request)
    (hsender : c.getClusterIdFromClientId request.txn.sender = k) :
    request.posting.amount ≤ bank request.posting.source := by
  have hsound := hled.sound hrouted hlow hhigh
  have hx : request.txn.sender ∈ clientsIn c k request := Constants.mem_items.mpr ⟨.inl rfl, hsender⟩
  have hcover := hsound.covered request hin _ hx
  unfold Server.takes at hcover
  rw [if_pos rfl] at hcover
  have hsettled : bank request.txn.sender = _ :=
    h.settled clientsIn_subset hsound (fun _ ho => ho.inFlight) hin hnew hx
  exact hcover.trans hsettled.ge

/-- The leader of a cluster commits a transfer: the bank has the amount, and moves it. -/
theorem Tracked.commits (h : Tracked L n bank k) (hled : SoleLed c L book n)
    (hfits : Fits c L book n) (hprov : Provenance c n) (hlow : 1 ≤ k) (hhigh : k ≤ c.numClusters)
    (hstep : Stepped c n e n') (he : ∀ dst request, e ≠ .call dst request) {request : TransferReq}
    (hacts : Acts n e (L.leader k) fs (.request (.transfer request)))
    (hserver : n'.servers (L.leader k) = r.server)
    (hinput : Server.LeaderInput c (n.servers (L.leader k)).clusterId (.request (.transfer request)))
    (heffect : (n.servers (L.leader k)).LeaderEffect c (.request (.transfer request))
      (Server.transferRes true request.tid) r.server.wal.pending r.server.balances) :
    request.posting.amount ≤ bank request.posting.source ∧
      Tracked L n' (fun x => bank x + request.posting.effect x) k := by
  have hcluster : (n.servers (L.leader k)).clusterId = k := by
    rw [hprov.routed.clusterId, L.member k hlow hhigh]
  have hsound := hled.sound hprov.routed hlow hhigh
  have hlone := hled.lone _ (L.leads hlow hhigh)
  have hbook : book request.tid = .transfer request := hfits.booked hprov hacts _ request rfl rfl
  have hnew : ¬ n.Owed (L.leader k) request := by
    rintro ⟨⟨w, hw, -⟩, -⟩
    have hprepared := (hled.concerns hprov.routed hlow hhigh hw).1
    rw [hbook] at hprepared
    cases hprepared
  obtain ⟨-, hsender, hreceiver⟩ : Server.LoneInput c (n.servers (L.leader k)).clusterId
      (.request (.transfer request)) := by
    rcases hinput with hinput | ⟨_, _, _, heq, -⟩
    · exact hinput
    · cases heq
  have hpending : (n'.servers (L.leader k)).wal.pending = r.server.wal.pending := by rw [hserver]
  have hbalances : (n'.servers (L.leader k)).balances = r.server.balances := by rw [hserver]
  generalize r.server.wal.pending = pending, r.server.balances = balances,
    hres : Server.transferRes true request.tid = response,
    heq : Input.request (.transfer request) = input at heffect hpending hbalances
  cases heffect with
  | kept _ _ hno => exact absurd hres.symm (hno request heq.symm)
  | prepared => cases heq
  | decided isCommit => cases isCommit <;> cases heq
  | committed _ hcommits =>
    obtain rfl := Request.transfer.inj (Input.request.inj heq)
    obtain ⟨hown, -, hacc, -⟩ := hcommits
    have hpoll : book request.tid = .poll false request := hbook
    have hval : request = (n.servers (L.leader k)).acceptVal :=
      hlone.polled hpoll hown hacc
    have hin : (n.servers (L.leader k)).InFlight c request := by
      refine .inr ⟨hacc, ?_, hval⟩
      rw [← hval]
      exact Server.inCluster_eq_two.mpr ⟨hsender, hreceiver⟩
    rw [hcluster] at hsender hreceiver
    refine ⟨h.covered hled hprov.routed hlow hhigh hin hnew hsender, ?_⟩
    have hgranted : Tracks (clientsIn c k) (fun r => r.posting.effect) _
        (fun r' => n.Owed (L.leader k) r' ∨ r' = request) _
        (fun x => bank x + request.posting.effect x) :=
      h.grant clientsIn_subset hsound (fun _ ho => ho.inFlight) hin hnew (fun _ => Iff.rfl)
        (fun _ _ => rfl) fun x hx hout => by
          rw [posting_effect_of_cluster hx hout, add_zero]
    refine hgranted.pay hsound ?_ (.inr rfl) (fun r' => ?_) (fun x hx => ?_) fun x hx => ?_
    · rintro r' (ho | rfl)
      · exact ho.inFlight
      · exact hin
    · rw [Owed.congr _ hstep he (by rw [hpending])]
      constructor
      · intro ho
        refine ⟨.inl ho, ?_⟩
        rintro rfl
        exact hnew ho
      · rintro ⟨ho | rfl, hne⟩
        · exact ho
        · exact absurd rfl hne
    · rw [hbalances, movedBalances_posting]
    · have hout : request.posting.effect x = 0 := by
        apply posting_effect_of_notMem
        constructor
        · rintro rfl
          exact hx (Constants.mem_items.mpr ⟨.inl rfl, hsender⟩)
        · rintro rfl
          exact hx (Constants.mem_items.mpr ⟨.inr rfl, hreceiver⟩)
      rw [hbalances, movedBalances_posting, hout, add_zero]

/-- What the client sends moves what is tracked only if it is a decision on a transaction that
the leader has prepared. -/
theorem Tracked.sends (h : Tracked L n bank k) (hservers : n'.servers = n.servers)
    (hdecided : ∀ tid w, (n.servers (L.leader k)).wal.pending tid = some w →
      (n'.Decided true tid ↔ n.Decided true tid)) : Tracked L n' bank k := by
  refine h.frame clientsIn_subset (fun request => ?_) (fun x _ => by rw [hservers]) fun _ _ => rfl
  unfold Owed
  rw [hservers]
  constructor
  · rintro ⟨⟨w, hw, htxn⟩, hdec⟩
    exact ⟨⟨w, hw, htxn⟩, (hdecided _ w hw).mp hdec⟩
  · rintro ⟨⟨w, hw, htxn⟩, hdec⟩
    exact ⟨⟨w, hw, htxn⟩, (hdecided _ w hw).mpr hdec⟩

theorem deliver_of_step {i : ℕ} (h : n.step c (.deliver i fs) = some n') :
    ∃ call, n.calls[i]? = some call ∧ call.response = none ∧ n' = n.deliver c i fs call := by
  obtain ⟨call, hcall, h⟩ := Option.bind_eq_some_iff.mp h
  split_ifs at h with hnew
  exact ⟨call, hcall, by simpa using hnew, (Option.some.inj h).symm⟩

/-- The answers after a request is handled. -/
theorem answered_deliver {i : ℕ} {call : Call} (hcall : n.calls[i]? = some call)
    (hnew : call.response = none) {src : Option ℤ} {dst : ℤ} {request : Request}
    {response : Response} : (n.deliver c i fs call).Answered src dst request response ↔
      n.Answered src dst request response ∨ (call.src = src ∧ call.dst = dst ∧
        call.request = request ∧
          ((n.servers call.dst).proceed c fs call.request).response = some response) := by
  constructor
  · rintro ⟨call', hmem, rfl, rfl, rfl, hresponse⟩
    rcases mem_set_append hcall hmem with hold | ⟨rfl, -⟩ | hout
    · exact .inl ⟨call', hold, rfl, rfl, rfl, hresponse⟩
    · exact .inr ⟨rfl, rfl, rfl, hresponse⟩
    · rw [(mem_outCalls.mp hout).2.2.1] at hresponse
      cases hresponse
  · rintro (⟨call', hmem, rfl, rfl, rfl, hresponse⟩ | ⟨rfl, rfl, rfl, hresponse⟩)
    · obtain ⟨j, hj⟩ := List.mem_iff_getElem?.mp hmem
      have hlater : Later call { call with
          response := ((n.servers call.dst).proceed c fs call.request).response } :=
        ⟨rfl, rfl, rfl, by simp [hnew], id⟩
      obtain ⟨b, hb, hl⟩ := getElem?_set_later (outCalls call.dst
        ((n.servers call.dst).proceed c fs call.request).sent) hcall hlater hj
      exact ⟨b, List.mem_of_getElem? hb, hl.src, hl.dst, hl.request, hl.response _ hresponse⟩
    · have hlen : i < n.calls.length := (List.getElem?_eq_some_iff.mp hcall).1
      exact ⟨_, List.mem_append_left _ (List.mem_set hlen _), rfl, rfl, rfl, hresponse⟩

end Network

end TpcBank
