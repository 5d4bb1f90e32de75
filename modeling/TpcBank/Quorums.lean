import TpcBank.Rounds
import TpcBank.LogEffects

/-! Promises and the quorums behind proposals: in a cluster of three servers at most one
proposal carries a given ballot number. -/
namespace TpcBank
open Transition

theorem Ballot.eq_of_parts {b b' : Ballot} (hnum : b.num = b'.num)
    (hid : b.serverId = b'.serverId) : b = b' := by
  cases b
  cases b'
  simp_all

/-! ### The members of a cluster -/

theorem ceilDiv_eq_iff {a b k : ℤ} (hb : 0 < b) :
    ceilDiv a b = k ↔ b * (k - 1) < a ∧ a ≤ b * k := by
  have hle := le_ceilDiv_iff (a := a) (b := b) (z := k) hb
  have hlt := le_ceilDiv_iff (a := a) (b := b) (z := k - 1) hb
  rw [mul_comm b k, mul_comm b (k - 1), ← hle]
  constructor
  · rintro rfl
    refine ⟨?_, le_rfl⟩
    rw [← not_le, ← hlt]
    omega
  · rintro ⟨hlow, hhigh⟩
    rw [← not_le, ← hlt] at hlow
    omega

namespace Constants

variable {c : Constants}

noncomputable def members (c : Constants) (clusterId : ℤ) : Finset ℤ :=
  Finset.Ioc (c.clusterSize * (clusterId - 1)) (c.clusterSize * clusterId)

@[simp] theorem mem_members {clusterId id : ℤ} :
    id ∈ c.members clusterId ↔ c.getClusterIdFromServerId id = clusterId := by
  rw [members, Finset.mem_Ioc, getClusterIdFromServerId, ceilDiv_eq_iff c.clusterSize_pos]

theorem card_members (clusterId : ℤ) : (c.members clusterId).card = c.clusterSize.toNat := by
  rw [members, Int.card_Ioc]
  rw [mul_sub, mul_one]
  congr 1
  omega

/-- The ids of one cluster are all ids of servers, or none is. -/
theorem bounds_of_cluster {p q : ℤ} (hp : 1 ≤ p ∧ p ≤ c.numClusters * c.clusterSize)
    (hcluster : c.getClusterIdFromServerId q = c.getClusterIdFromServerId p) :
    1 ≤ q ∧ q ≤ c.numClusters * c.clusterSize := by
  have hsize := c.clusterSize_pos
  have hq := (ceilDiv_eq_iff hsize).mp hcluster
  have hpos : 0 < c.getClusterIdFromServerId p := c.clusterIdFromServerId_pos hp.1
  have hmax : c.getClusterIdFromServerId p ≤ c.numClusters := (le_ceilDiv_iff hsize).mpr hp.2
  constructor
  · nlinarith
  · nlinarith

/-- A server that has a peer is a peer of its peer. -/
theorem mem_peers_symm {p q : ℤ} (h : q ∈ c.peers p) : p ∈ c.peers q := by
  rw [mem_peers] at h ⊢
  obtain ⟨hq, hne, hcluster⟩ := h
  exact ⟨c.bounds_of_cluster hq hcluster.symm, hne.symm, hcluster.symm⟩

theorem peers_nodup (c : Constants) (id : ℤ) : (c.peers id).Nodup := by
  refine List.Nodup.filter _ ?_
  simp only [serversById, List.map_map]
  refine List.Nodup.map ?_ List.nodup_range
  intro i j hij
  have hij : (i : ℤ) + 1 = j + 1 := hij
  omega

/-- A cluster is a server and its peers. -/
theorem length_peers {p : ℤ} (hp : 1 ≤ p ∧ p ≤ c.numClusters * c.clusterSize) :
    ((c.peers p).length : ℤ) + 1 = c.clusterSize := by
  have hsize := c.clusterSize_pos
  have hpeers : (c.peers p).toFinset = (c.members (c.getClusterIdFromServerId p)).erase p := by
    ext q
    rw [List.mem_toFinset, mem_peers, Finset.mem_erase, mem_members]
    constructor
    · rintro ⟨-, hne, hcluster⟩
      exact ⟨hne, hcluster⟩
    · rintro ⟨hne, hcluster⟩
      exact ⟨c.bounds_of_cluster hp hcluster, hne, hcluster⟩
  have hcard := congrArg Finset.card hpeers
  rw [List.toFinset_card_of_nodup (c.peers_nodup p), Finset.card_erase_of_mem (mem_members.mpr rfl),
    card_members] at hcard
  omega

/-- Two servers, each with a peer of one cluster of at most three servers. -/
theorem pairs_meet (hsize : c.clusterSize ≤ 3) {p p' x x' : ℤ}
    (hx : x ∈ c.peers p) (hx' : x' ∈ c.peers p')
    (hcluster : c.getClusterIdFromServerId p = c.getClusterIdFromServerId p') :
    ∃ y, (y = p ∨ y = x) ∧ (y = p' ∨ y = x') := by
  rw [mem_peers] at hx hx'
  have hcommon : (({p, x} : Finset ℤ) ∩ {p', x'}).Nonempty := by
    apply Finset.inter_nonempty_of_card_lt_card_add_card
      (s := c.members (c.getClusterIdFromServerId p))
    · intro y hy
      simp only [Finset.mem_insert, Finset.mem_singleton] at hy
      rcases hy with rfl | rfl
      · exact mem_members.mpr rfl
      · exact mem_members.mpr hx.2.2
    · intro y hy
      simp only [Finset.mem_insert, Finset.mem_singleton] at hy
      rcases hy with rfl | rfl
      · exact mem_members.mpr hcluster.symm
      · exact mem_members.mpr (hx'.2.2.trans hcluster.symm)
    · rw [card_members, Finset.card_pair (Ne.symm hx.2.1), Finset.card_pair (Ne.symm hx'.2.1)]
      omega
  obtain ⟨y, hy⟩ := hcommon
  simp only [Finset.mem_inter, Finset.mem_insert, Finset.mem_singleton] at hy
  exact ⟨y, hy⟩

/-- What holds of the one pair and what holds of the other hold together of some server. -/
theorem pairs_share (hsize : c.clusterSize ≤ 3) {P P' : ℤ → Prop} {p p' x x' : ℤ}
    (hx : x ∈ c.peers p) (hx' : x' ∈ c.peers p')
    (hcluster : c.getClusterIdFromServerId p = c.getClusterIdFromServerId p')
    (hp : P p) (hpx : P x) (hp' : P' p') (hpx' : P' x') : ∃ y, P y ∧ P' y := by
  obtain ⟨y, hy, hy'⟩ := pairs_meet hsize hx hx' hcluster
  refine ⟨y, ?_, ?_⟩
  · rcases hy with rfl | rfl
    · exact hp
    · exact hpx
  · rcases hy' with rfl | rfl
    · exact hp'
    · exact hpx'

end Constants

namespace Server

variable {c : Constants} {fs : FileSystem} {s : Server} {input : Input} {r : Handled}

theorem Acted.sent_prepare (h : Acted c fs s input r) {dst : ℤ} {q : PrepareReq}
    (ho : ⟨dst, .prepare q⟩ ∈ r.sent) :
    q = ⟨⟨s.ballotNum + 1, s.serverId⟩, s.lastInserted⟩ ∧
      ∃ isCrossShard request, input = .request (.poll isCrossShard request) ∧
        s.Owns request.tid ∧ s.awaitPrepareDecision = false ∧ s.awaitAcceptDecision = false ∧
        r = s.startRound request := by
  cases h with
  | opened isCrossShard request hown hprep hacc =>
    obtain ⟨-, hrequest⟩ := mem_broadcast.mp ho
    simp only [Request.prepare.injEq] at hrequest
    exact ⟨hrequest, isCrossShard, request, rfl, hown, hprep, hacc, rfl⟩
  | refused request inSync res sent hack hballot hlatest hsent => cases (hsent _ ho).1
  | prepareCounted request response ahead sent hprep hnum hid hsent => cases hsent _ ho
  | accepting => simp [mem_broadcast] at ho
  | finished => simp [mem_broadcast] at ho
  | committed => simp [mem_broadcast] at ho
  | _ => simp at ho

/-- Where a majority of acknowledgements comes from: it was there before, or it is completed
by the acknowledgement that is being counted. -/
theorem Acted.prepareSuccesses_cases (h : Acted c fs s input r)
    (hafter : r.server.awaitPrepareDecision = true) (hmaj : 2 ≤ r.server.prepareSuccesses) :
    (s.awaitPrepareDecision = true ∧ 2 ≤ s.prepareSuccesses ∧
        r.server.promisedNum = s.promisedNum) ∨
      (∃ request, input = .request (.prepare request) ∧
        r.server.promisedNum = request.ballot) ∨
      ∃ request response, input = .reply (.prepare request) .ok response ∧
        response.toPrepare.ack = true ∧
        response.toPrepare.ballot.num = s.promisedNum.num ∧
        response.toPrepare.ballot.serverId = s.serverId ∧
        s.awaitPrepareDecision = true ∧ r.server.promisedNum = s.promisedNum ∧
        r.server.log = s.log := by
  cases h with
  | opened => simp [startRound] at hmaj
  | promised request => exact .inr (.inl ⟨request, rfl, rfl⟩)
  | prepareCounted request response ahead sent hprep hnum hid =>
    cases hack : response.toPrepare.ack with
    | true => exact .inr (.inr ⟨request, response, rfl, hack, hnum, hid, hprep, rfl, rfl⟩)
    | false =>
      simp only [countPrepare, hack, Bool.false_eq_true, if_false] at hmaj
      exact .inl ⟨hprep, hmaj, rfl⟩
  | rejected => cases hafter
  | accepting => cases hafter
  | finished => cases hafter
  | committed => cases hafter
  | _ => exact .inl ⟨hafter, hmaj, rfl⟩

end Server

namespace Network

variable {c : Constants} {n n' : Network} {e : Event} {p : ℤ}

/-! ### Promises -/

/-- An acknowledged Prepare in the history. -/
def Acknowledged (n : Network) (src : Option ℤ) (dst : ℤ) (b : Ballot) (reply : PrepareRes) :
    Prop :=
  reply.ack = true ∧ ∃ l, n.Answered src dst (.prepare ⟨b, l⟩) (.prepare reply)

/-- A server has opened a round with a ballot or has acknowledged it to a peer. -/
def Promised (n : Network) (q : ℤ) (b : Ballot) : Prop :=
  (b.serverId = q ∧ ∃ dst l, n.Sent (some q) dst (.prepare ⟨b, l⟩)) ∨
    ∃ src reply, n.Acknowledged src q b reply

theorem Acknowledged.step {src : Option ℤ} {dst : ℤ} {b : Ballot} {reply : PrepareRes}
    (h : n.Acknowledged src dst b reply) (hstep : Stepped c n e n') :
    n'.Acknowledged src dst b reply :=
  ⟨h.1, h.2.imp fun _ ha => ha.step hstep⟩

theorem Promised.step {q : ℤ} {b : Ballot} (h : n.Promised q b) (hstep : Stepped c n e n') :
    n'.Promised q b := by
  rcases h with ⟨hid, dst, l, hs⟩ | ⟨src, reply, hack⟩
  · exact .inl ⟨hid, dst, l, hs.step hstep⟩
  · exact .inr ⟨src, reply, hack.step hstep⟩

/-- The ballots a server has promised are bounded by its number and differ in their number. -/
structure Promising (n : Network) (q : ℤ) : Prop where
  nonneg : 0 ≤ (n.servers q).ballotNum
  bound : ∀ b, n.Promised q b → 0 < b.num ∧ b.num ≤ (n.servers q).ballotNum
  unique : ∀ b b', n.Promised q b → n.Promised q b' → b.num = b'.num → b = b'

theorem promising_init (c : Constants) (disk : ℤ → Disk) (q : ℤ) : Promising (init c disk) q := by
  have hnone : ∀ b, ¬ (init c disk).Promised q b := by
    rintro b (⟨-, dst, l, call, hmem, -⟩ | ⟨src, reply, -, l, call, hmem, -⟩) <;> cases hmem
  exact ⟨le_rfl, fun b hb => absurd hb (hnone b), fun b b' hb => absurd hb (hnone b)⟩

theorem Promising.quiet (h : Promising n p) (hserver : n'.servers p = n.servers p)
    (hpromised : ∀ b, n'.Promised p b → n.Promised p b) : Promising n' p := by
  constructor
  · rw [hserver]
    exact h.nonneg
  · intro b hb
    rw [hserver]
    exact h.bound b (hpromised b hb)
  · intro b b' hb hb'
    exact h.unique b b' (hpromised b hb) (hpromised b' hb')

theorem Promising.handled {r : Handled} (h : Promising n p)
    (hle : (n.servers p).ballotNum ≤ r.server.ballotNum) (hserver : n'.servers p = r.server)
    (hpromised : ∀ b, n'.Promised p b → n.Promised p b ∨
      b = r.server.promisedNum ∧ (n.servers p).ballotNum < b.num ∧
        b.num ≤ r.server.ballotNum) : Promising n' p := by
  constructor
  · rw [hserver]
    exact h.nonneg.trans hle
  · intro b hb
    rw [hserver]
    rcases hpromised b hb with hold | ⟨-, hlow, hhigh⟩
    · exact ⟨(h.bound b hold).1, (h.bound b hold).2.trans hle⟩
    · exact ⟨h.nonneg.trans_lt hlow, hhigh⟩
  · intro b b' hb hb' heq
    rcases hpromised b hb with hold | ⟨hnew, hlow, -⟩ <;>
      rcases hpromised b' hb' with hold' | ⟨hnew', hlow', -⟩
    · exact h.unique b b' hold hold' heq
    · have := (h.bound b hold).2
      omega
    · have := (h.bound b' hold').2
      omega
    · rw [hnew, hnew']

theorem Promising.step (h : Promising n p) (hstep : Stepped c n e n')
    (hkeeps : Each Server.KeepsBallot n e) : Promising n' p := by
  cases hstep.changeAt p with
  | same hserver hsent hans =>
    refine h.quiet hserver ?_
    rintro b (⟨hid, dst, l, hs⟩ | ⟨src, reply, hack, l, ha⟩)
    · exact .inl ⟨hid, dst, l, hsent _ _ hs⟩
    · exact .inr ⟨src, reply, hack, l, hans _ _ _ ha⟩
  | handled fs input r hacts hr hserver hsent hans =>
    refine h.handled (hr.ballotNum_le (hkeeps.acts hacts)) hserver ?_
    rintro b (⟨hself, dst, l, hs⟩ | ⟨src, reply, hack, l, ha⟩)
    · rcases hsent _ _ hs with hold | ho
      · exact .inl (.inl ⟨hself, dst, l, hold⟩)
      · obtain ⟨hq, x, request, -, -, -, -, rfl⟩ := hr.sent_prepare ho
        simp only [PrepareReq.mk.injEq] at hq
        rw [hq.1]
        exact .inr ⟨rfl, Int.lt_succ _, le_rfl⟩
    · rcases hans _ _ _ ha with hold | ⟨hinput, -, hres⟩
      · exact .inl (.inr ⟨src, reply, hack, l, hold⟩)
      · obtain ⟨reply', hreply, -, -, hspec⟩ := hr.response_prepare hinput hres
        cases hreply
        obtain ⟨hnum, -, -, hpromised⟩ := hspec hack
        rw [hpromised]
        exact .inr ⟨rfl, hnum, le_rfl⟩

/-! ### The acknowledgement behind a majority -/

/-- A condition on the acknowledgements that a server counts, in view of its log. -/
def CountsOnly (ok : List WALEntry → PrepareRes → Prop) (s : Server) (_ : FileSystem) :
    Input → Prop
  | .reply (.prepare _) status response =>
      status = .ok → response.toPrepare.ack = true → s.awaitPrepareDecision = true →
        response.toPrepare.ballot.num = s.promisedNum.num →
        response.toPrepare.ballot.serverId = s.serverId → ok s.log response.toPrepare
  | _ => True

/-- While a server awaits the decision on its own ballot, a majority of promises means that
some peer has acknowledged the ballot. -/
def Majority (ok : List WALEntry → PrepareRes → Prop) (n : Network) (p : ℤ) : Prop :=
  (n.servers p).awaitPrepareDecision = true → (n.servers p).promisedNum.serverId = p →
    2 ≤ (n.servers p).prepareSuccesses →
    ∃ dst reply, n.Acknowledged (some p) dst (n.servers p).promisedNum reply ∧
      ok (n.servers p).log reply

variable {ok : List WALEntry → PrepareRes → Prop}

theorem Majority.step (h : Majority ok n p) (hok : ∀ log log' reply, log <+: log' →
    ok log reply → ok log' reply) (hrouted : Routed c n) (hstep : Stepped c n e n')
    (hcounts : Each (CountsOnly ok) n e) : Majority ok n' p := by
  have hquiet : n'.servers p = n.servers p → Majority ok n' p := by
    intro hserver hawait hself hmaj
    rw [hserver] at hawait hself hmaj ⊢
    obtain ⟨dst, reply, hack, hreply⟩ := h hawait hself hmaj
    exact ⟨dst, reply, hack.step hstep, hreply⟩
  cases hstep.changeAt p with
  | same hserver => exact hquiet hserver
  | handled fs input r hacts hr hserver =>
    intro hawait hself hmaj
    rw [hserver] at hawait hself hmaj ⊢
    rcases hr.prepareSuccesses_cases hawait hmaj with ⟨hbefore, hmaj', heq⟩ |
      ⟨request, rfl, heq⟩ | ⟨request, response, rfl, hack, hnum, hid, hbefore, heq, hlog⟩
    · rw [heq] at hself ⊢
      obtain ⟨dst, reply, hacked, hreply⟩ := h hbefore hself hmaj'
      exact ⟨dst, reply, hacked.step hstep, hok _ _ _ hr.log_grows hreply⟩
    · -- the ballot of a peer is not its own
      rw [heq] at hself
      obtain ⟨src, hs⟩ := hacts.request_sent
      exact absurd hself (hrouted.prepare_foreign hs)
    · rw [heq] at hself ⊢
      obtain ⟨dst, ha⟩ := hacts.reply_answered
      obtain ⟨reply, rfl, hballot, -⟩ := hrouted.prepareAnswer _ _ _ _ ha
      obtain ⟨b, l⟩ := request
      have hb : b = (n.servers p).promisedNum := by
        have hnum' : b.num = (n.servers p).promisedNum.num := by
          rw [← hnum]
          exact congrArg Ballot.num hballot.symm
        have hid' : b.serverId = (n.servers p).promisedNum.serverId := by
          rw [hself, ← hrouted.serverId p, ← hid]
          exact congrArg Ballot.serverId hballot.symm
        exact Ballot.eq_of_parts hnum' hid'
      subst hb
      refine ⟨dst, reply, ⟨hack, l, ha.step hstep⟩, ?_⟩
      rw [hlog]
      exact hcounts.acts hacts rfl hack hbefore hnum hid

/-! ### The quorum behind a proposal -/

/-- Every Accept was sent with the acknowledgement of a peer. -/
def Backed (n : Network) (p : ℤ) : Prop :=
  ∀ dst q, n.Sent (some p) dst (.accept q) →
    ∃ peer reply, n.Acknowledged (some p) peer q.ballot reply

theorem Backed.step (h : Backed n p) (hmajority : Majority ok n p) (hrouted : Routed c n)
    (hstep : Stepped c n e n') (hown : Each (Server.ProposesOwn c) n e) : Backed n' p := by
  intro dst q hs
  have hold : n.Sent (some p) dst (.accept q) →
      ∃ peer reply, n'.Acknowledged (some p) peer q.ballot reply := by
    intro hs
    obtain ⟨peer, reply, hack⟩ := h dst q hs
    exact ⟨peer, reply, hack.step hstep⟩
  rcases hstep.sent_before hs with hs | ⟨fs, input, r, hacts, hr, -, ho⟩
  · exact hold hs
  · obtain ⟨x, rfl, hproposes, hballot, -⟩ := hr.sent_accept ho
    have hself := hown.acts hacts q.r (by simp) hproposes
    rw [hrouted.serverId p] at hself
    obtain ⟨peer, reply, hack, -⟩ := hmajority hproposes.2.1 hself hproposes.2.2.1
    rw [hballot]
    exact ⟨peer, reply, hack.step hstep⟩

/-- Everything that holds of the proposals of all servers in a run that meets `OneRound`. -/
structure Proposals (c : Constants) (n : Network) : Prop where
  routed : Routed c n
  proposing : ∀ p, Proposing n p
  promising : ∀ p, Promising n p
  majority : ∀ p, Majority (fun _ _ => True) n p
  backed : ∀ p, Backed n p

theorem proposals_init (c : Constants) (disk : ℤ → Disk) : Proposals c (init c disk) where
  routed := routed_init c disk
  proposing := proposing_init c disk
  promising := promising_init c disk
  majority := by
    intro p hawait
    cases hawait
  backed := by
    rintro p dst q ⟨call, hmem, -⟩
    cases hmem

theorem Proposals.step (h : Proposals c n) (hstep : Stepped c n e n')
    (hguard : Each (OneRound c) n e) : Proposals c n' where
  routed := h.routed.step hstep
  proposing := fun p => (h.proposing p).step h.routed hstep hguard
  promising := fun p => (h.promising p).step hstep (hguard.mono fun _ _ _ hg => hg.1)
  majority := fun p => (h.majority p).step (fun _ _ _ _ _ => trivial) h.routed hstep
    (each_of_acts fun _ _ input _ => by
      unfold CountsOnly
      split
      · exact fun _ _ _ _ _ => trivial
      · trivial)
  backed := fun p => (h.backed p).step (h.majority p) h.routed hstep
    (hguard.mono fun _ _ _ hg => hg.2)

namespace Proposals

variable {q q' : AcceptReq} {p' dst dst' : ℤ}

/-- The proposer and one of its peers have promised the ballot of a proposal. -/
theorem quorum (h : Proposals c n) (hs : n.Sent (some p) dst (.accept q)) :
    ∃ peer ∈ c.peers p, n.Promised p q.ballot ∧ n.Promised peer q.ballot := by
  obtain ⟨peer, reply, hack, l, ha⟩ := h.backed p dst q hs
  have hself := ((h.proposing p).own dst q hs).1
  have hpeer := (h.routed.prepare ha.sent).2
  rw [hself] at hpeer
  exact ⟨peer, hpeer, .inl ⟨hself, peer, l, ha.sent⟩, .inr ⟨_, reply, hack, l, ha⟩⟩

/-- In a cluster of three servers two proposals with one ballot number are the same. -/
theorem unique (h : Proposals c n) (hsize : c.clusterSize = 3)
    (hcluster : c.getClusterIdFromServerId p = c.getClusterIdFromServerId p')
    (hs : n.Sent (some p) dst (.accept q)) (hs' : n.Sent (some p') dst' (.accept q'))
    (hnum : q.ballot.num = q'.ballot.num) : p = p' ∧ q = q' := by
  obtain ⟨x, hx, hp, hpx⟩ := h.quorum hs
  obtain ⟨x', hx', hp', hpx'⟩ := h.quorum hs'
  obtain ⟨y, hyp, hyp'⟩ : ∃ y, n.Promised y q.ballot ∧ n.Promised y q'.ballot :=
    Constants.pairs_share hsize.le hx hx' hcluster hp hpx hp' hpx'
  have hballot := (h.promising y).unique _ _ hyp hyp' hnum
  obtain rfl : p = p' := by
    rw [← ((h.proposing p).own dst q hs).1, ← ((h.proposing p').own dst' q' hs').1, hballot]
  exact ⟨rfl, (h.proposing p).value dst dst' q q' hs hs' hballot⟩

end Proposals
end Network
end TpcBank
