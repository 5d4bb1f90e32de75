import TpcBank.Library.Voting
import TpcBank.Moves
import TpcBank.Rejections

/-! Who has voted for what, in the runs that only ask for transfers within a cluster: every
proposal is for a transfer that the client asked the proposer for, and every server knows the
request that it accepted last. -/
namespace TpcBank
open Transition

/-- Both clients of a transaction belong to the cluster of a server. -/
def Constants.Within (c : Constants) (id : ℤ) (txn : Transaction) : Prop :=
  c.getClusterIdFromClientId txn.sender = c.getClusterIdFromServerId id ∧
    c.getClusterIdFromClientId txn.receiver = c.getClusterIdFromServerId id

instance (c : Constants) (id : ℤ) (txn : Transaction) : Decidable (c.Within id txn) :=
  inferInstanceAs (Decidable (_ ∧ _))

theorem Constants.Within.inCluster {c : Constants} {id : ℤ} {txn : Transaction} {s : Server}
    (h : c.Within id txn) (hs : s.clusterId = c.getClusterIdFromServerId id) :
    s.inCluster c txn = 2 := by
  unfold Server.inCluster Server.isClientInCluster
  rw [hs, h.1, h.2]
  simp

namespace Network

/-- The client asks a server only for transfers within the cluster of the server. -/
def TransfersWithin (c : Constants) (_ : Network) : Event → Prop
  | .call dst (.transfer request) => c.Within dst request.txn
  | .call _ _ => False
  | _ => True

instance (c : Constants) (n : Network) (e : Event) : Decidable (TransfersWithin c n e) := by
  refine e.casesOn (motive := fun e => Decidable (TransfersWithin c n e)) (fun dst request => ?_)
    (fun _ _ => isTrue trivial) fun _ _ _ => isTrue trivial
  apply Request.decidable (P := fun r => TransfersWithin c n (.call dst r))
  all_goals
    intros
    dsimp only [TransfersWithin]
    infer_instance

/-- The conditions under which one round respects what another has decided. -/
structure Respects (c : Constants) (s : Server) (fs : FileSystem) (input : Input) : Prop where
  settles : SettlesOwn c s fs input
  once : s.AppliesOnce c fs input
  opens : s.OpensFree fs input
  counts : CountsOnly Server.ReportsFree s fs input
  accepts : s.AcceptsPromised fs input
  syncs : s.SyncsBetween fs input

instance {ok : List WALEntry → PrepareRes → Prop} [∀ log reply, Decidable (ok log reply)]
    (s : Server) (fs : FileSystem) (input : Input) : Decidable (CountsOnly ok s fs input) := by
  refine Input.decidable (fun r => isTrue trivial) (fun r status response => ?_) input
  apply Request.decidable (P := fun r => CountsOnly ok s fs (.reply r status response))
  all_goals
    intros
    dsimp only [CountsOnly]
    infer_instance

instance (c : Constants) (s : Server) (fs : FileSystem) (input : Input) :
    Decidable (Respects c s fs input) :=
  decidable_of_iff (SettlesOwn c s fs input ∧ s.AppliesOnce c fs input ∧ s.OpensFree fs input ∧
    CountsOnly Server.ReportsFree s fs input ∧ s.AcceptsPromised fs input ∧ s.SyncsBetween fs input)
    ⟨fun ⟨h₁, h₂, h₃, h₄, h₅, h₆⟩ => ⟨h₁, h₂, h₃, h₄, h₅, h₆⟩,
      fun ⟨h₁, h₂, h₃, h₄, h₅, h₆⟩ => ⟨h₁, h₂, h₃, h₄, h₅, h₆⟩⟩

/-- A server has voted for a request in a ballot: it has proposed it, or acknowledged its Accept. -/
def Voted (n : Network) (y : ℤ) (b : Ballot) (request : TransferReq) : Prop :=
  (b.serverId = y ∧ ∃ dst, n.Sent (some y) dst (.accept ⟨b, request⟩)) ∨
    ∃ src reply, reply.ack = true ∧ n.Answered src y (.accept ⟨b, request⟩) (.accept reply)

/-- What the client asked for: only for transfers within a cluster, and for all that was proposed.
A proposer awaits the decision until the client is answered. -/
structure Asked (c : Constants) (n : Network) : Prop where
  client : ∀ dst r, n.Sent none dst r → ∃ request, r = .transfer request ∧ c.Within dst request.txn
  proposed : ∀ p dst q, n.Sent (some p) dst (.accept q) →
    ∃ call ∈ n.calls, call.src = none ∧ call.dst = p ∧ call.request = .transfer q.r ∧
      (call.response = none → (n.servers p).awaitAcceptDecision = true ∧
        (n.servers p).paxosTid = q.r.tid)

/-- What the votes rest on. -/
structure Voters (c : Constants) (n : Network) : Prop where
  accounted : Accounted c n
  unique : TransferUnique n
  asked : Asked c n
  held : ∀ x, (n.servers x).acceptNum.num = 0 ∨
    n.Voted x (n.servers x).acceptNum (n.servers x).acceptVal

variable {c : Constants} {n n' : Network} {e : Event} {p x : ℤ} {b : Ballot} {v : TransferReq}

theorem Voted.step (h : n.Voted x b v) (hstep : Stepped c n e n') : n'.Voted x b v := by
  rcases h with ⟨hid, dst, hs⟩ | ⟨src, reply, hack, ha⟩
  · exact .inl ⟨hid, dst, hs.step hstep⟩
  · exact .inr ⟨src, reply, hack, ha.step hstep⟩

/-- What is voted for was proposed within the cluster, to a peer of the proposer. -/
theorem Voted.proposed (h : n.Voted x b v) (hrouted : Routed c n) :
    ∃ p dst, n.Sent (some p) dst (.accept ⟨b, v⟩) ∧ dst ∈ c.peers p ∧
      c.getClusterIdFromServerId p = c.getClusterIdFromServerId x := by
  rcases h with ⟨-, dst, hs⟩ | ⟨src, reply, -, ha⟩
  · obtain ⟨p, hp, hpeer⟩ := hrouted.accept hs
    cases hp
    exact ⟨x, dst, hs, hpeer, rfl⟩
  · obtain ⟨p, rfl, hpeer⟩ := hrouted.accept ha.sent
    exact ⟨p, x, ha.sent, hpeer, (Constants.mem_peers.mp hpeer).2.2.symm⟩

namespace Voters

/-- A transfer that was proposed is within the cluster of its proposer. -/
theorem within (h : Voters c n) {dst : ℤ} {q : AcceptReq} (hs : n.Sent (some p) dst (.accept q)) :
    c.Within p q.r.txn := by
  obtain ⟨call, hmem, hsrc, rfl, hrequest, -⟩ := h.asked.proposed p dst q hs
  obtain ⟨request, heq, hwithin⟩ := h.asked.client _ _ ⟨call, hmem, hsrc, rfl, rfl⟩
  rw [hrequest] at heq
  cases heq
  exact hwithin

theorem voted_within (h : Voters c n) (hv : n.Voted x b v) : c.Within x v.txn := by
  obtain ⟨p, dst, hs, -, hcluster⟩ := hv.proposed h.accounted.proposals.routed
  have hp := h.within hs
  rw [Constants.Within, hcluster] at hp
  exact hp

/-- The ballots of Commits carry positive numbers. -/
theorem commit_pos (h : Voters c n) {src : Option ℤ} {dst : ℤ} {q : CommitReq}
    (hs : n.Sent src dst (.commit q)) : 0 < q.ballot.num := by
  obtain ⟨p, rfl, -⟩ := h.accounted.proposals.routed.commit hs
  obtain ⟨v, hv, -⟩ := h.accounted.commits p dst q hs
  obtain ⟨peer, -, hpromised, -⟩ := h.accounted.proposals.quorum hv
  exact ((h.accounted.proposals.promising p).bound _ hpromised).1

/-- Servers only receive what has to do with transfers within their cluster. -/
theorem locals (h : Voters c n) {fs : FileSystem} {input : Input} (hacts : Acts n e x fs input) :
    (n.servers x).Local c input := by
  have hrouted := h.accounted.proposals.routed
  rcases hacts.sent with ⟨src, request, rfl, hs⟩ | ⟨dst, request, status, res, rfl, -⟩
  swap
  · trivial
  cases src with
  | none =>
    obtain ⟨request, rfl, -⟩ := h.asked.client _ _ hs
    trivial
  | some p =>
    rcases hrouted.server p x request hs with ⟨⟨q, rfl⟩, -⟩ | ⟨hpeer, ⟨q, rfl, -⟩ | ⟨q, rfl⟩ | ⟨q, rfl⟩⟩
    · trivial
    · trivial
    · have hwithin := h.within hs
      rw [Constants.Within, ← (Constants.mem_peers.mp hpeer).2.2] at hwithin
      exact Constants.Within.inCluster hwithin (hrouted.clusterId x)
    · intro hreleases
      rcases h.held x with hzero | hv
      · have hpos := h.commit_pos hs
        rw [← hreleases.2.2, hzero] at hpos
        exact absurd hpos (lt_irrefl _)
      · exact Constants.Within.inCluster (h.voted_within hv) (hrouted.clusterId x)

theorem move (h : Voters c n) {fs : FileSystem} {input : Input} {r : Handled}
    (hacts : Acts n e x fs input) (hr : (n.servers x).Acted c fs input r) (hworking : e.working) :
    (n.servers x).Move c input r :=
  hr.move (h.accounted.phases x) (h.locals hacts) (hacts.working hworking)

/-- A poll that goes on to the accept phase does so under a ballot of its own, which a peer has
acknowledged. -/
theorem proposes (h : Voters c n) {request : TransferReq}
    (hproposes : (n.servers x).Proposes c request)
    (hown : (n.servers x).promisedNum.serverId = (n.servers x).serverId) :
    (n.servers x).promisedNum.serverId = x ∧ ∃ y ∈ c.peers x, ∃ reply,
      n.Acknowledged (some x) y (n.servers x).promisedNum reply := by
  have hrouted := h.accounted.proposals.routed
  rw [hrouted.serverId x] at hown
  obtain ⟨y, reply, hack, -⟩ := h.accounted.proposals.majority x hproposes.2.1 hown hproposes.2.2.1
  have ⟨_, l, ha⟩ := hack
  have hpeer := (hrouted.prepare ha.sent).2
  rw [hown] at hpeer
  exact ⟨hown, y, hpeer, reply, hack⟩

end Voters

/-- The calls of one Transfer are one call. -/
theorem TransferUnique.eq (h : TransferUnique n) {a b : Call} {request request' : TransferReq}
    (ha : a ∈ n.calls) (hb : b ∈ n.calls) (harequest : a.request = .transfer request)
    (hbrequest : b.request = .transfer request') (htid : request.tid = request'.tid) : a = b := by
  obtain ⟨i, hi⟩ := List.mem_iff_getElem?.mp ha
  obtain ⟨j, hj⟩ := List.mem_iff_getElem?.mp hb
  obtain rfl := h i j a b request.tid hi hj (by rw [harequest]; rfl)
    (by rw [hbrequest, htid]; rfl)
  exact Option.some.inj (hi.symm.trans hj)

/-- The call behind an old proposal is still there, and its proposer still awaits the decision unless
the event has ended the round. -/
theorem Asked.later (h : Asked c n) (hstep : Stepped c n e n') {p dst : ℤ} {q : AcceptReq}
    (hs : n.Sent (some p) dst (.accept q))
    (hkeep : ∀ call ∈ n'.calls, call.request = .transfer q.r → call.response = none →
      (n.servers p).awaitAcceptDecision = true → (n.servers p).paxosTid = q.r.tid →
        (n'.servers p).awaitAcceptDecision = true ∧ (n'.servers p).paxosTid = q.r.tid) :
    ∃ call ∈ n'.calls, call.src = none ∧ call.dst = p ∧ call.request = .transfer q.r ∧
      (call.response = none → (n'.servers p).awaitAcceptDecision = true ∧
        (n'.servers p).paxosTid = q.r.tid) := by
  obtain ⟨call, hmem, hsrc, hdst, hrequest, hawait⟩ := h.proposed p dst q hs
  obtain ⟨call', hmem', hlater⟩ := hstep.later_mem hmem
  refine ⟨call', hmem', by rw [hlater.src, hsrc], by rw [hlater.dst, hdst],
    by rw [hlater.request, hrequest], fun hnone => ?_⟩
  have hnone' : call.response = none := by
    cases hres : call.response with
    | none => rfl
    | some res =>
      rw [hlater.response res hres] at hnone
      cases hnone
  obtain ⟨hacc, htid⟩ := hawait hnone'
  exact hkeep call' hmem' (by rw [hlater.request, hrequest]) hnone hacc htid

theorem Asked.step (h : Asked c n) (hvoters : Voters c n) (hunique : TransferUnique n')
    (hstep : Stepped c n e n') (hworking : e.working) (hwithin : TransfersWithin c n e) :
    Asked c n' := by
  have hphases := hvoters.accounted.phases
  constructor
  · intro dst r hs
    rcases hstep.client_before hs with hs | ⟨rfl, -⟩
    · exact h.client dst r hs
    · cases r with
      | transfer request => exact ⟨request, rfl, hwithin⟩
      | _ => exact hwithin.elim
  · intro p dst q hs
    cases hstep.changeAt p with
    | same hserver hsent =>
      refine h.later hstep (hsent _ _ hs) fun _ _ _ _ hacc htid => ?_
      rw [hserver]
      exact ⟨hacc, htid⟩
    | handled fs input r hacts hr hserver hsent hans hsends hanswers =>
      have hmove := hvoters.move hacts hr hworking
      rcases hsent _ _ hs with hs | ho
      · refine h.later hstep hs fun call hmem hrequest hnone hacc htid => ?_
        rw [hserver]
        -- a poll of the proposer that ends the round answers the client
        have hanswered : ∀ request ack, input = .request (.transfer request) →
            (n.servers p).Owns request.tid → r.response = Server.transferRes ack request.tid →
            False := by
          intro request ack hinput hown hres
          obtain ⟨src, b, hb, -, -, hb', hresponse⟩ := hanswers _ _ hinput hres
          have hown := hown.2 ((hphases p).accept hacc)
          rw [htid] at hown
          obtain rfl := hunique.eq hmem hb hrequest hb' hown
          rw [hnone] at hresponse
          cases hresponse
        cases hmove with
        | opened request hown hprep hacc' =>
          rw [hacc] at hacc'
          cases hacc'
        | proposed request locks hproposes =>
          have hone := (hphases p).one hproposes.2.1
          rw [hacc] at hone
          cases hone
        | committed request d locks hcommits =>
          exact (hanswered request true rfl hcommits.1 rfl).elim
        | failed request locks hown => exact (hanswered request false rfl hown rfl).elim
        | still input t response sent hpreparing htid' =>
          exact ⟨hacc, (htid' hacc).trans htid⟩
        | _ => exact ⟨hacc, htid⟩
      · cases hmove with
        | proposed request locks hproposes =>
          obtain ⟨-, hq⟩ := Server.mem_broadcast.mp ho
          cases hq
          obtain ⟨src, hs⟩ := hacts.request_sent
          obtain ⟨call, hmem, hsrc, hdst, hrequest⟩ := hs.step hstep
          have hclient := hvoters.accounted.proposals.routed.src_of_fromClient hs rfl
          refine ⟨call, hmem, hsrc.trans hclient, hdst, hrequest, fun _ => ?_⟩
          rw [hserver]
          exact ⟨rfl, hproposes.1.2 ((hphases p).prepare hproposes.2.1)⟩
        | still input t response sent hpreparing htid hsyncs => cases hsyncs _ ho
        | opened => simp [Server.startRound, Server.mem_broadcast] at ho
        | committed => simp [Server.mem_broadcast] at ho
        | _ => simp at ho

namespace Voters

theorem init (c : Constants) (disk : ℤ → Disk) : Voters c (Network.init c disk) where
  accounted := accounted_init c disk
  unique := by
    intro i j a b tid ha
    simp [Network.init] at ha
  asked := by
    refine ⟨?_, ?_⟩
    · rintro dst r ⟨call, hmem, -⟩
      cases hmem
    · rintro p dst q ⟨call, hmem, -⟩
      cases hmem
  held := fun _ => .inl rfl

/-- What an event does to one server, with its messages. -/
theorem moved (h : Voters c n) (hstep : Stepped c n e n') (hworking : e.working) (x : ℤ) :
    n'.servers x = n.servers x ∨ ∃ fs input r, Acts n e x fs input ∧
      (n.servers x).Move c input r ∧ n'.servers x = r.server ∧
      (∀ o ∈ r.sent, n'.Sent (some x) o.dst o.request) ∧
      ∀ request response, input = .request request → r.response = some response →
        ∃ src, n'.Answered src x request response := by
  cases hstep.changeAt x with
  | same hserver => exact .inl hserver
  | handled fs input r hacts hr hserver hsent hans hsends hanswers =>
    exact .inr ⟨fs, input, r, hacts, h.move hacts hr hworking, hserver, hsends, hanswers⟩

theorem held_handled (h : Voters c n) {fs : FileSystem} {input : Input} {r : Handled}
    (hstep : Stepped c n e n') (hacts : Acts n e x fs input) (hmove : (n.servers x).Move c input r)
    (hown : (n.servers x).ProposesOwn c fs input)
    (hsends : ∀ o ∈ r.sent, n'.Sent (some x) o.dst o.request)
    (hanswers : ∀ request response, input = .request request → r.response = some response →
      ∃ src, n'.Answered src x request response) :
    r.server.acceptNum.num = 0 ∨ n'.Voted x r.server.acceptNum r.server.acceptVal := by
  have hold : (n.servers x).acceptNum.num = 0 ∨
      n'.Voted x (n.servers x).acceptNum (n.servers x).acceptVal := by
    rcases h.held x with hzero | hv
    · exact .inl hzero
    · exact .inr (hv.step hstep)
  cases hmove with
  | proposed request locks hproposes =>
    obtain ⟨hself, y, hy, -⟩ := h.proposes hproposes (hown request rfl hproposes)
    refine .inr (.inl ⟨hself, y, hsends ⟨y, _⟩ ?_⟩)
    rw [Server.mem_broadcast, h.accounted.proposals.routed.stubs x]
    exact ⟨hy, rfl⟩
  | accepted request locks hprom hnum =>
    obtain ⟨src, ha⟩ := hanswers _ _ rfl rfl
    exact .inr (.inr ⟨src, _, rfl, ha⟩)
  | _ => exact hold

theorem step (h : Voters c n) (hsize : c.clusterSize = 3) (hstep : Stepped c n e n')
    (hworking : e.working) (hwithin : TransfersWithin c n e) (hdistinct : DistinctTransfers n e)
    (hguard : Each (SettlesOwn c) n e) : Voters c n' := by
  have hunique := h.unique.step hstep hdistinct
  refine ⟨h.accounted.step hsize hstep hworking hguard, hunique,
    h.asked.step h hunique hstep hworking hwithin, fun x => ?_⟩
  rcases h.moved hstep hworking x with
    hserver | ⟨fs, input, r, hacts, hmove, hserver, hsends, hanswers⟩
  · rw [hserver]
    rcases h.held x with hzero | hv
    · exact .inl hzero
    · exact .inr (hv.step hstep)
  · rw [hserver]
    exact h.held_handled hstep hacts hmove (hguard.acts hacts).1.2 hsends hanswers

end Voters

end Network
end TpcBank
