import TpcBank.Library.Voting
import TpcBank.Slots

/-! The ballots of a cluster as votes. A ballot is live while its proposer can still commit it, and
what a server reports with a promise is what it has voted for among the live ballots of the slot. -/
namespace TpcBank
open Transition

namespace Constants

/-- A server of a cluster and one of its peers. -/
def Pair (c : Constants) (clusterId : ℤ) (pair : Set ℤ) : Prop :=
  ∃ p, ∃ x ∈ c.peers p, c.getClusterIdFromServerId p = clusterId ∧ pair = {p, x}

theorem Pair.meet {c : Constants} {clusterId : ℤ} (hsize : c.clusterSize = 3) (Q Q' : Set ℤ)
    (h : c.Pair clusterId Q) (h' : c.Pair clusterId Q') : ∃ y ∈ Q, y ∈ Q' := by
  obtain ⟨p, x, hx, hp, rfl⟩ := h
  obtain ⟨p', x', hx', hp', rfl⟩ := h'
  exact pairs_meet hsize.le hx hx' (hp.trans hp'.symm)

end Constants

namespace Network

/-- The proposer of a ballot has committed it, or still awaits the accept decision on it. -/
def Live (n : Network) (b : Ballot) : Prop :=
  (∃ dst, n.Sent (some b.serverId) dst (.commit ⟨b⟩)) ∨
    (n.servers b.serverId).awaitAcceptDecision = true ∧ (n.servers b.serverId).acceptNum = b

/-- The votes of a network. -/
def voting (n : Network) : Voting ℤ Ballot ℤ ℤ where
  number := Ballot.num
  slot := n.Slot
  accepted := fun y b => ∃ v, n.Voted y b v
  live := n.Live

variable {c : Constants} {n n' : Network} {e : Event} {p x y : ℤ} {b b' : Ballot} {l : ℤ}
  {v v' : TransferReq}

theorem Voted.sent (h : n.Voted x b v) (hproposals : Proposals c n) :
    ∃ dst, n.Sent (some b.serverId) dst (.accept ⟨b, v⟩) := by
  obtain ⟨p, dst, hs, -⟩ := h.proposed hproposals.routed
  rw [((hproposals.proposing p).own dst _ hs).1]
  exact ⟨dst, hs⟩

theorem Voted.value (h : n.Voted x b v) (h' : n.Voted y b v') (hproposals : Proposals c n) :
    v = v' := by
  obtain ⟨dst, hs⟩ := h.sent hproposals
  obtain ⟨dst', hs'⟩ := h'.sent hproposals
  exact congrArg AcceptReq.r ((hproposals.proposing b.serverId).value dst dst' _ _ hs hs' rfl)

/-- Who voted first proposed. -/
theorem Voted.proposer (h : n.Voted x b v) (hproposals : Proposals c n) :
    n.Voted b.serverId b v := by
  obtain ⟨dst, hs⟩ := h.sent hproposals
  exact .inl ⟨rfl, dst, hs⟩

/-- Whoever else voted is a peer of the proposer. -/
theorem Voted.peer (h : n.Voted x b v) (hproposals : Proposals c n) (hne : b.serverId ≠ x) :
    x ∈ c.peers b.serverId := by
  rcases h with ⟨hid, -⟩ | ⟨src, reply, -, ha⟩
  · exact absurd hid hne
  · obtain ⟨p, rfl, hpeer⟩ := hproposals.routed.accept ha.sent
    rwa [((hproposals.proposing p).own x _ ha.sent).1]

/-- An Accept comes with the ballot of a peer. -/
theorem accept_foreign (hproposals : Proposals c n) {src : Option ℤ} {q : AcceptReq}
    (hs : n.Sent src x (.accept q)) : q.ballot.serverId ≠ x := by
  obtain ⟨p, rfl, hpeer⟩ := hproposals.routed.accept hs
  rw [((hproposals.proposing p).own x q hs).1]
  exact (Constants.mem_peers.mp hpeer).2.1.symm

/-- A vote was there before, or it is cast under the promise of its ballot. -/
theorem Voted.before (h : n'.Voted x b v) (hvoters : Voters c n) (hstep : Stepped c n e n')
    (hworking : e.working) (hguard : Each (Respects c) n e) : n.Voted x b v ∨
      (n.servers x).promisedNum = b ∧ (n'.servers x).promisedNum = b ∧
        (n'.servers x).accepted = true ∧ (n'.servers x).acceptNum = b ∧
        (b.serverId = x ∧ (n'.servers x).awaitPrepareDecision = false ∨
          b.serverId ≠ x ∧ (n.servers x).promised = true) := by
  rcases h with ⟨hid, dst, hs⟩ | ⟨src, reply, hack, ha⟩
  · rcases hstep.sent_before hs with hold | ⟨fs, input, r, hacts, hr, hserver, ho⟩
    · exact .inl (.inl ⟨hid, dst, hold⟩)
    · rw [hserver]
      cases hvoters.move hacts hr hworking with
      | proposed request locks hproposes =>
        obtain ⟨-, hq⟩ := Server.mem_broadcast.mp ho
        cases hq
        exact .inr ⟨rfl, rfl, rfl, rfl, .inl ⟨hid, rfl⟩⟩
      | still input t response sent hpreparing htid hsyncs => cases hsyncs _ ho
      | opened => simp [Server.startRound, Server.mem_broadcast] at ho
      | committed => simp [Server.mem_broadcast] at ho
      | _ => simp at ho
  · rcases hstep.answered_before ha with hold | ⟨fs, r, hacts, hr, hserver, hs, hres⟩
    · exact .inl (.inr ⟨src, reply, hack, hold⟩)
    · have hforeign := accept_foreign hvoters.accounted.proposals hs
      rw [hserver]
      cases hvoters.move hacts hr hworking with
      | accepted request locks hprom hnum =>
        have heq := (hguard.acts hacts).accepts hprom hnum
        exact .inr ⟨heq.symm, heq.symm, rfl, rfl, .inr ⟨hforeign, hprom⟩⟩
      | still input t response sent hpreparing htid hsyncs hrefused =>
        have hno : reply.ack = false := (hrefused _ hres).2
        rw [hack] at hno
        cases hno

/-- A live ballot was so before, or it is proposed. -/
theorem Live.before (h : n'.Live b) (hvoters : Voters c n) (hstep : Stepped c n e n')
    (hworking : e.working) : n.Live b ∨
      (n.servers b.serverId).awaitPrepareDecision = true ∧
        (n.servers b.serverId).promisedNum = b := by
  rcases h with ⟨dst, hs⟩ | ⟨hacc, hnum⟩
  · rcases hstep.sent_before hs with hs | ⟨fs, input, r, hacts, hr, -, ho⟩
    · exact .inl (.inl ⟨dst, hs⟩)
    · obtain ⟨_, request, -, hcommits, -, hq, -⟩ := hr.sent_commit ho
      exact .inl (.inr ⟨hcommits.2.2.1, (congrArg CommitReq.ballot hq).symm⟩)
  · rcases hvoters.moved hstep hworking b.serverId with
      hserver | ⟨fs, input, r, hacts, hmove, hserver, -, -⟩
    · rw [hserver] at hacc hnum
      exact .inl (.inr ⟨hacc, hnum⟩)
    rw [hserver] at hacc hnum
    cases hmove with
    | proposed request locks hproposes => exact .inr ⟨hproposes.2.1, hnum⟩
    | accepted request locks hprom =>
      obtain ⟨src, hs⟩ := hacts.request_sent
      have hnum : request.ballot = b := hnum
      exact absurd (by rw [hnum]) (accept_foreign hvoters.accounted.proposals hs)
    | committed => cases hacc
    | failed => cases hacc
    | _ => exact .inl (.inr ⟨hacc, hnum⟩)

/-- A ballot that somebody has voted for does not come to life. -/
theorem Live.old (h : n'.Live b) (hvoters : Voters c n) (hstep : Stepped c n e n')
    (hworking : e.working) (hvoted : n.Voted x b v) : n.Live b := by
  have hproposals := hvoters.accounted.proposals
  rcases h.before hvoters hstep hworking with hlive | ⟨hprep, hnum⟩
  · exact hlive
  · obtain ⟨dst, hs⟩ := hvoted.sent hproposals
    have hfresh := (hproposals.proposing b.serverId).fresh hprep (by rw [hnum]) dst _ hs
    rw [hnum] at hfresh
    exact absurd hfresh (lt_irrefl _)

end Network
end TpcBank
