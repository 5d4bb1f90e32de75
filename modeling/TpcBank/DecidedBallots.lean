import TpcBank.LiveBallots

/-! The decided ballots of a cluster. A proposal is guarded by two servers that had voted for no live
ballot of its slot, so at most one live ballot of a slot is decided. -/
namespace TpcBank
open Transition
namespace Network

/-- A ballot was committed in a cluster. -/
structure Committed (c : Constants) (n : Network) (clusterId : ℤ) (b : Ballot) (v : TransferReq) :
    Prop where
  cluster : c.getClusterIdFromServerId b.serverId = clusterId
  sent : ∃ dst, n.Sent (some b.serverId) dst (.commit ⟨b⟩)
  voted : n.Voted b.serverId b v

/-- An entry is that of a committed ballot, and stands one behind its slot. -/
def Placed (c : Constants) (n : Network) (x i : ℤ) (entry : WALEntry) : Prop :=
  ∃ b v, n.Committed c (c.getClusterIdFromServerId x) b v ∧ n.Slot b (i - 1) ∧
    entry = committedEntry v b

/-- The own round of a server that awaits the prepare decision. -/
structure Opened (n : Network) (p : ℤ) : Prop where
  slot : ∀ l, n.Slot (n.servers p).promisedNum l → l = (n.servers p).lastInserted
  votes : ∀ b v, n.Voted p b v → b.num < (n.servers p).promisedNum.num
  passed : (n.servers p).accepted = true → Server.PassedOver p (n.servers p).log
    (n.servers p).acceptNum (n.servers p).acceptVal

/-- A pair of servers is behind a proposal: they have promised its ballot, and before that had
voted for no live ballot of its slot. -/
def Guards (c : Constants) (n : Network) (p : ℤ) (b : Ballot) : Prop :=
  ∃ x ∈ c.peers p, n.Promised p b ∧ n.Promised x b ∧
    ∀ l, n.Slot b l → n.voting.Untouched p b l ∧ n.voting.Untouched x b l

/-- What keeps the logs of a cluster together. -/
structure Agreeing (c : Constants) (n : Network) : Prop where
  voters : Voters c n
  slots : Slotted n
  majority : ∀ p, Majority Server.ReportsFree n p
  promised : ∀ x, (n.servers x).promised = true → (n.servers x).promisedNum.serverId ≠ x →
    n.Promised x (n.servers x).promisedNum
  voted : ∀ x b v, n.Voted x b v → n.Promised x b
  once : ∀ p p' dst dst' q q', n.Sent (some p) dst (.accept q) →
    n.Sent (some p') dst' (.accept q') → q.r.tid = q'.r.tid → q = q'
  opened : ∀ p, (n.servers p).awaitPrepareDecision = true →
    (n.servers p).promisedNum.serverId = p → Opened n p
  counted : ∀ p, (n.servers p).awaitAcceptDecision = true → (n.servers p).acceptNum.serverId = p →
    2 ≤ (n.servers p).acceptSuccesses → ∃ x ∈ c.peers p, ∃ v, n.Voted x (n.servers p).acceptNum v
  guarded : ∀ p dst q, n.Sent (some p) dst (.accept q) → Guards c n p q.ballot
  kept : ∀ x b v l, n.Voted x b v → n.Live b → n.Slot b l → l < (n.servers x).lastInserted ∨
    (n.servers x).accepted = true ∧ (n.servers x).acceptNum = b
  reported : ∀ p x b' reply, n.Acknowledged (some p) x b' reply →
    ∀ b v l, n.Voted x b v → n.Live b → b.num < b'.num → n.Slot b l → n.Slot b' l →
      reply.acceptNum = some b ∧ reply.acceptVal = some v
  commits : ∀ p dst q, n.Sent (some p) dst (.commit q) → ∃ v, n.Voted p q.ballot v ∧
    ∃ x ∈ c.peers p, ∃ v, n.Voted x q.ballot v
  done : ∀ p dst q l, n.Sent (some p) dst (.commit q) → n.Slot q.ballot l →
    l < (n.servers p).lastInserted
  logs : ∀ x (i : ℕ) entry, (n.servers x).log[i]? = some entry → n.Placed c x i entry
  asks : ∀ p dst q, n.Sent (some p) dst (.sync q) →
    -1 ≤ q.lastInserted ∧ q.lastInserted ≤ (n.servers p).lastInserted
  syncs : ∀ p dst q res, n.Answered (some p) dst (.sync q) (.sync res) →
    (res.ack = true → res.logs ≠ []) ∧ ∀ (i : ℕ) entry, res.logs[i]? = some entry →
      n.Placed c p (q.lastInserted + 1 + i) (Server.fromLogEntry entry)

variable {c : Constants} {n n' : Network} {e : Event} {p x y k i : ℤ} {b b' : Ballot} {l : ℤ}
  {v v' : TransferReq} {entry : WALEntry}

theorem Committed.step (h : n.Committed c k b v) (hstep : Stepped c n e n') :
    n'.Committed c k b v := by
  obtain ⟨hcluster, ⟨dst, hs⟩, hv⟩ := h
  exact ⟨hcluster, ⟨dst, hs.step hstep⟩, hv.step hstep⟩

theorem Placed.step (h : n.Placed c x i entry) (hstep : Stepped c n e n') :
    n'.Placed c x i entry := by
  obtain ⟨b, v, hcommitted, hslot, heq⟩ := h
  exact ⟨b, v, hcommitted.step hstep, hslot.step hstep, heq⟩

theorem Guards.guarded (h : Guards c n p b) (hslot : n.Slot b l) :
    n.voting.Guarded (c.Pair (c.getClusterIdFromServerId p)) b l := by
  obtain ⟨x, hx, -, -, huntouched⟩ := h
  refine ⟨{p, x}, ⟨p, x, hx, rfl, rfl⟩, ?_⟩
  rintro z (rfl | rfl)
  · exact (huntouched l hslot).1
  · exact (huntouched l hslot).2

namespace Agreeing

theorem proposals (h : Agreeing c n) : Proposals c n := h.voters.accounted.proposals

theorem routed (h : Agreeing c n) : Routed c n := h.proposals.routed

/-! ### What is decided -/

theorem guarded_of_voted (h : Agreeing c n) (hv : n.Voted x b v) (hslot : n.Slot b l) :
    n.voting.Guarded (c.Pair (c.getClusterIdFromServerId b.serverId)) b l := by
  obtain ⟨dst, hs⟩ := hv.sent h.proposals
  exact (h.guarded _ dst _ hs).guarded hslot

/-- A live ballot that a peer of its proposer has voted for is decided. -/
theorem decided_of_voted (h : Agreeing c n) (hlive : n.Live b) (hx : x ∈ c.peers b.serverId)
    (hv : n.Voted x b v) :
    n.voting.Decided (c.Pair (c.getClusterIdFromServerId b.serverId)) b := by
  refine ⟨hlive, {b.serverId, x}, ⟨_, x, hx, rfl, rfl⟩, ?_⟩
  rintro z (rfl | rfl)
  · exact ⟨v, hv.proposer h.proposals⟩
  · exact ⟨v, hv⟩

/-- Two ballots of one cluster that are decided for one slot are the same. -/
theorem decided_unique (h : Agreeing c n) (hsize : c.clusterSize = 3) (hlive : n.Live b)
    (hlive' : n.Live b') (hx : x ∈ c.peers b.serverId) (hy : y ∈ c.peers b'.serverId)
    (hv : n.Voted x b v) (hv' : n.Voted y b' v')
    (hcluster : c.getClusterIdFromServerId b.serverId = c.getClusterIdFromServerId b'.serverId)
    (hslot : n.Slot b l) (hslot' : n.Slot b' l) : b = b' := by
  have hdecided := h.decided_of_voted hlive hx hv
  have hguarded := h.guarded_of_voted hv hslot
  rw [hcluster] at hdecided hguarded
  apply hdecided.unique (h.decided_of_voted hlive' hy hv') (Constants.Pair.meet hsize)
    hslot hslot' hguarded (h.guarded_of_voted hv' hslot')
  intro hnum
  obtain ⟨dst, hs⟩ := hv.sent h.proposals
  obtain ⟨dst', hs'⟩ := hv'.sent h.proposals
  exact congrArg AcceptReq.ballot (h.proposals.unique hsize hcluster hs hs' hnum).2

theorem committed_live (hcommitted : n.Committed c k b v) : n.Live b := .inl hcommitted.sent

theorem committed_peer (h : Agreeing c n) (hcommitted : n.Committed c k b v) :
    ∃ x ∈ c.peers b.serverId, n.Voted x b v := by
  obtain ⟨dst, hs⟩ := hcommitted.sent
  obtain ⟨-, -, x, hx, v', hv'⟩ := h.commits _ dst _ hs
  obtain rfl := hcommitted.voted.value hv' h.proposals
  exact ⟨x, hx, hv'⟩

/-- Two ballots of one cluster that were committed for one slot are the same. -/
theorem committed_unique (h : Agreeing c n) (hsize : c.clusterSize = 3)
    (hcommitted : n.Committed c k b v) (hcommitted' : n.Committed c k b' v')
    (hslot : n.Slot b l) (hslot' : n.Slot b' l) : b = b' ∧ v = v' := by
  obtain ⟨x, hx, hv⟩ := h.committed_peer hcommitted
  obtain ⟨y, hy, hv'⟩ := h.committed_peer hcommitted'
  obtain rfl := h.decided_unique hsize (committed_live hcommitted) (committed_live hcommitted') hx hy
    hv hv' (hcommitted.cluster.trans hcommitted'.cluster.symm) hslot hslot'
  exact ⟨rfl, hv.value hv' h.proposals⟩

/-- The logs of a cluster agree wherever they both have an entry. -/
theorem agree (h : Agreeing c n) (hsize : c.clusterSize = 3)
    (hcluster : c.getClusterIdFromServerId x = c.getClusterIdFromServerId y) {i : ℕ}
    {entry entry' : WALEntry} (hx : (n.servers x).log[i]? = some entry)
    (hy : (n.servers y).log[i]? = some entry') : entry = entry' := by
  obtain ⟨b, v, hcommitted, hslot, rfl⟩ := h.logs x i entry hx
  obtain ⟨b', v', hcommitted', hslot', rfl⟩ := h.logs y i entry' hy
  rw [hcluster] at hcommitted
  obtain ⟨rfl, rfl⟩ := h.committed_unique hsize hcommitted hcommitted' hslot hslot'
  rfl

/-! ### What a proposer may pass over -/

/-- An applied tid is that of a committed ballot whose slot is before the end of the log. -/
theorem slot_of_applied (h : Agreeing c n) {tid : ℤ} (htid : tid ∈ committedTids (n.servers x).log) :
    ∃ b v l, n.Committed c (c.getClusterIdFromServerId x) b v ∧ n.Slot b l ∧
      l < (n.servers x).lastInserted ∧ v.tid = tid := by
  obtain ⟨entry, hentry, rfl⟩ := List.mem_map.mp htid
  obtain ⟨i, hi⟩ := List.mem_iff_getElem?.mp (List.mem_of_mem_filter hentry)
  obtain ⟨b, v, hcommitted, hslot, rfl⟩ := h.logs x i entry hi
  refine ⟨b, v, _, hcommitted, hslot, ?_, rfl⟩
  have hlen := (List.getElem?_eq_some_iff.mp hi).1
  rw [h.slots.last x]
  omega

/-- A live ballot of the slot of the own round of a server is none that the server may pass over. -/
theorem not_passedOver (h : Agreeing c n) (hprep : (n.servers p).awaitPrepareDecision = true)
    (hself : (n.servers p).promisedNum.serverId = p) (hown : n.Slot (n.servers p).promisedNum l)
    (hv : n.Voted x b v) (hlive : n.Live b) (hslot : n.Slot b l) :
    ¬ Server.PassedOver p (n.servers p).log b v := by
  obtain rfl := (h.opened p hprep hself).slot l hown
  rintro (rfl | htid)
  · rcases hlive with ⟨dst, hs⟩ | ⟨hacc, -⟩
    · exact lt_irrefl _ (h.done _ dst _ _ hs hslot)
    · rw [(h.voters.accounted.phases _).one hprep] at hacc
      cases hacc
  · obtain ⟨b', v', l', hcommitted, hslot', hlt, heq⟩ := h.slot_of_applied htid
    obtain ⟨dst, hs⟩ := hv.sent h.proposals
    obtain ⟨dst', hs'⟩ := hcommitted.voted.sent h.proposals
    have hsame := congrArg AcceptReq.ballot (h.once _ _ dst dst' _ _ hs hs' heq.symm)
    dsimp only at hsame
    rw [← hsame] at hslot'
    rw [h.slots.one b l' _ hslot' hslot] at hlt
    exact lt_irrefl _ hlt

/-! ### What one step keeps -/

theorem voted_step (h : Agreeing c n) (hproposals' : Proposals c n') (hstep : Stepped c n e n')
    (hworking : e.working) (hguard : Each (Respects c) n e) (hv : n'.Voted x b v) :
    n'.Promised x b := by
  rcases hv.before h.voters hstep hworking hguard with
    hold | ⟨hnum, -, -, -, ⟨hself, -⟩ | ⟨hne, hprom⟩⟩
  · exact (h.voted x b v hold).step hstep
  · obtain ⟨dst, hs⟩ := hv.sent hproposals'
    obtain ⟨peer, -, hpromised, -⟩ := hproposals'.quorum hs
    rwa [hself] at hpromised
  · rw [← hnum]
    exact (h.promised x hprom (by rw [hnum]; exact hne)).step hstep

theorem promised_step (h : Agreeing c n) (hstep : Stepped c n e n') (hworking : e.working)
    (hprom : (n'.servers x).promised = true) (hne : (n'.servers x).promisedNum.serverId ≠ x) :
    n'.Promised x (n'.servers x).promisedNum := by
  rcases h.voters.moved hstep hworking x with
    hserver | ⟨fs, input, r, hacts, hmove, hserver, -, hanswers⟩
  · rw [hserver] at hprom hne ⊢
    exact (h.promised x hprom hne).step hstep
  rw [hserver] at hprom hne ⊢
  cases hmove with
  | opened => exact absurd (h.routed.serverId x) hne
  | committed => cases hprom
  | released => cases hprom
  | promised request =>
    obtain ⟨src, ha⟩ := hanswers _ _ rfl rfl
    exact .inr ⟨src, _, rfl, request.lastInserted, ha⟩
  | _ => exact (h.promised x hprom hne).step hstep

/-- A transfer is proposed once: while its call is open, the server that has proposed it awaits
the accept decision. -/
theorem once_step (h : Agreeing c n) (hstep : Stepped c n e n') {p' dst dst' : ℤ}
    {q q' : AcceptReq} (hs : n'.Sent (some p) dst (.accept q))
    (hs' : n'.Sent (some p') dst' (.accept q')) (htid : q.r.tid = q'.r.tid) : q = q' := by
  cases hstep.change with
  | quiet hservers hsent hans =>
    rcases hsent _ _ _ hs with hs | ⟨hnone, -⟩
    · rcases hsent _ _ _ hs' with hs' | ⟨hnone, -⟩
      · exact h.once p p' dst dst' q q' hs hs' htid
      · cases hnone
    · cases hnone
  | handled id fs input r hacts hr hservers hsent hans =>
    have hmixed : ∀ {p dst dst'} {q q' : AcceptReq}, n.Sent (some p) dst (.accept q) →
        (⟨dst', .accept q'⟩ : OutCall) ∈ r.sent → q.r.tid ≠ q'.r.tid := by
      intro p dst dst' q q' hs ho htid
      obtain ⟨isCrossShard, hinput, hproposes, -⟩ := hr.sent_accept ho
      obtain ⟨call, hmem, -, rfl, hrequest, hawait⟩ := h.voters.asked.proposed _ _ _ hs
      cases hacts with
      | complete => cases hinput
      | @deliver i fs call' hcall hnew =>
        have hcall' := List.mem_of_getElem? hcall
        have hnamed : call'.request.namedTid = some q'.r.tid := by
          rw [Input.request.inj hinput]
          cases isCrossShard <;> rfl
        obtain ⟨j, hj⟩ := List.mem_iff_getElem?.mp hmem
        obtain rfl := h.voters.unique j i call call' q.r.tid hj hcall (by rw [hrequest]; rfl)
          (by rw [hnamed, htid])
        obtain rfl : call = call' := Option.some.inj (hj.symm.trans hcall)
        have hone := (h.voters.accounted.phases call.dst).one hproposes.2.1
        rw [(hawait hnew).1] at hone
        cases hone
    rcases hsent _ _ _ hs with hs | ⟨-, ho⟩
    · rcases hsent _ _ _ hs' with hs' | ⟨-, ho'⟩
      · exact h.once p p' dst dst' q q' hs hs' htid
      · exact absurd htid (hmixed hs ho')
    · rcases hsent _ _ _ hs' with hs' | ⟨-, ho'⟩
      · exact absurd htid.symm (hmixed hs' ho)
      · obtain ⟨_, hinput, -, hballot, -⟩ := hr.sent_accept ho
        obtain ⟨_, hinput', -, hballot', -⟩ := hr.sent_accept ho'
        have hpolled := congrArg Request.polled (Input.request.inj (hinput.symm.trans hinput'))
        simp only [Request.polled_poll, Option.some.injEq] at hpolled
        cases q
        cases q'
        simp_all

/-- No vote is cast for the ballot of a round while its prepare decision is awaited. -/
theorem votes_below (h : Agreeing c n) (hstep : Stepped c n e n') (hworking : e.working)
    (hguard : Each (Respects c) n e) (hprep : (n'.servers p).awaitPrepareDecision = true)
    (hself : (n.servers p).promisedNum.serverId = p)
    (hnum : (n'.servers p).promisedNum = (n.servers p).promisedNum)
    (hbefore : (n.servers p).awaitPrepareDecision = true) (hv : n'.Voted p b v) :
    b.num < (n.servers p).promisedNum.num := by
  rcases hv.before h.voters hstep hworking hguard with
    hold | ⟨-, hballot, -, -, ⟨-, hno⟩ | ⟨hne, -⟩⟩
  · exact (h.opened p hbefore hself).votes b v hold
  · rw [hprep] at hno
    cases hno
  · rw [← hballot, hnum] at hne
    exact absurd hself hne

/-- An own round goes on while a handler leaves the ballots and the end of the log as they are. -/
theorem opened_kept (h : Agreeing c n) (hstep : Stepped c n e n') (hworking : e.working)
    (hguard : Each (Respects c) n e) (hprep : (n'.servers p).awaitPrepareDecision = true)
    (hself : (n'.servers p).promisedNum.serverId = p)
    (hbefore : (n.servers p).awaitPrepareDecision = true)
    (hnum : (n'.servers p).promisedNum = (n.servers p).promisedNum)
    (hlast : (n'.servers p).lastInserted = (n.servers p).lastInserted)
    (hlog : (n'.servers p).log = (n.servers p).log)
    (haccepted : (n'.servers p).accepted = (n.servers p).accepted)
    (hacceptNum : (n'.servers p).acceptNum = (n.servers p).acceptNum)
    (hacceptVal : (n'.servers p).acceptVal = (n.servers p).acceptVal) : Opened n' p := by
  have hself' : (n.servers p).promisedNum.serverId = p := by rw [← hnum]; exact hself
  have hopened := h.opened p hbefore hself'
  constructor
  · intro l hslot
    rw [hnum] at hslot
    rw [hlast]
    rcases hslot.before h.routed hstep with hold | ⟨hlt, -⟩
    · exact hopened.slot l hold
    · rw [hself'] at hlt
      exact absurd hlt (not_lt.mpr (h.proposals.proposing p).promised_le)
  · intro b v hv
    rw [hnum]
    exact h.votes_below hstep hworking hguard hprep hself' hnum hbefore hv
  · rw [hlog, haccepted, hacceptNum, hacceptVal]
    exact hopened.passed

/-- A round is opened under a ballot above all that the server has voted for. -/
theorem opened_startRound (h : Agreeing c n) (hstep : Stepped c n e n') (hworking : e.working)
    (hguard : Each (Respects c) n e) {request : TransferReq}
    (hserver : n'.servers p = ((n.servers p).startRound request).server)
    (hpassed : (n.servers p).accepted = true → Server.PassedOver p (n.servers p).log
      (n.servers p).acceptNum (n.servers p).acceptVal) : Opened n' p := by
  have hself : ((n.servers p).startRound request).server.promisedNum.serverId = p :=
    h.routed.serverId p
  constructor
  · intro l hslot
    rw [hserver] at hslot ⊢
    rcases hslot.before h.routed hstep with hold | ⟨-, heq⟩
    · have hbound := ((h.proposals.promising _).bound _ (hold.promised h.routed)).2
      rw [hself] at hbound
      exact absurd hbound (not_le.mpr (Int.lt_succ _))
    · rw [hself] at heq
      exact heq
  · intro b v hv
    rw [hserver]
    rcases hv.before h.voters hstep hworking hguard with hold | ⟨hnum, hnum', -⟩
    · exact Int.lt_add_one_of_le ((h.proposals.promising p).bound b (h.voted p b v hold)).2
    · have hle := (h.proposals.proposing p).promised_le
      rw [hserver, ← hnum] at hnum'
      rw [← hnum'] at hle
      exact absurd hle (not_le.mpr (Int.lt_succ _))
  · intro haccepted
    rw [hserver] at haccepted ⊢
    exact hpassed haccepted

/-- A server that awaits the prepare decision of its own round has no accepted transaction under
the ballot of the round, so no commit releases one. -/
theorem not_releases_own (h : Agreeing c n) (hprep : (n.servers p).awaitPrepareDecision = true)
    (hself : (n.servers p).promisedNum.serverId = p) {src : Option ℤ} {q : CommitReq}
    (hs : n.Sent src p (.commit q)) : ¬ (n.servers p).Releases q := by
  intro hreleases
  have hpos := h.voters.commit_pos hs
  rcases h.voters.held p with hzero | hv
  · rw [← hreleases.2.2, hzero] at hpos
    exact lt_irrefl _ hpos
  · have hlt := (h.opened p hprep hself).votes _ _ hv
    rw [hreleases.2.1, hreleases.2.2] at hlt
    exact lt_irrefl _ hlt

/-- The own round of a server after one of its handlers. -/
theorem opened_step (h : Agreeing c n) (hstep : Stepped c n e n') (hworking : e.working)
    (hguard : Each (Respects c) n e) (hprep : (n'.servers p).awaitPrepareDecision = true)
    (hself : (n'.servers p).promisedNum.serverId = p) : Opened n' p := by
  have hserverId := h.routed.serverId p
  have hkept := h.opened_kept hstep hworking hguard hprep hself
  rcases h.voters.moved hstep hworking p with
    hserver | ⟨fs, input, r, hacts, hmove, hserver, -, -⟩
  · rw [hserver] at hprep hkept
    exact hkept hprep rfl rfl rfl rfl rfl rfl
  have hrespects := hguard.acts hacts
  rw [hserver] at hkept hprep hself
  cases hmove with
  | still input t response sent hpreparing => exact hkept (hpreparing hprep) rfl rfl rfl rfl rfl rfl
  | counted => exact hkept hprep rfl rfl rfl rfl rfl rfl
  | opened request hown hbefore hacc =>
    apply h.opened_startRound hstep hworking hguard hserver
    intro haccepted
    have hpassed := hrespects.opens request rfl hown hbefore hacc haccepted
    rwa [hserverId] at hpassed
  | proposed => cases hprep
  | committed => cases hprep
  | failed request locks hown hno =>
    rw [show (n.servers p).awaitPrepareDecision = true from hprep] at hno
    cases hno
  | promised request =>
    -- a promise to a peer is under the ballot of the peer
    obtain ⟨src, hs⟩ := hacts.request_sent
    exact absurd hself (h.routed.prepare_foreign hs)
  | accepted request locks hprom hnum =>
    obtain ⟨src, hs⟩ := hacts.request_sent
    have heq := hrespects.accepts hprom hnum
    exact absurd (by rw [heq]; exact hself) (accept_foreign h.proposals hs)
  | released request d locks hreleases =>
    obtain ⟨src, hs⟩ := hacts.request_sent
    exact absurd hreleases (h.not_releases_own hprep hself hs)
  | synced request response d hack =>
    exact absurd (hself.trans hserverId.symm) (hrespects.syncs rfl hack hprep)

/-- The vote of a peer behind a majority of accepts. -/
theorem counted_step (h : Agreeing c n) (hstep : Stepped c n e n') (hworking : e.working)
    (hacc : (n'.servers p).awaitAcceptDecision = true)
    (hself : (n'.servers p).acceptNum.serverId = p) (hmaj : 2 ≤ (n'.servers p).acceptSuccesses) :
    ∃ x ∈ c.peers p, ∃ v, n'.Voted x (n'.servers p).acceptNum v := by
  have hold : (n.servers p).awaitAcceptDecision = true → (n.servers p).acceptNum.serverId = p →
      2 ≤ (n.servers p).acceptSuccesses →
      ∃ x ∈ c.peers p, ∃ v, n'.Voted x (n.servers p).acceptNum v := by
    intro hacc hself hmaj
    obtain ⟨x, hx, v, hv⟩ := h.counted p hacc hself hmaj
    exact ⟨x, hx, v, hv.step hstep⟩
  rcases h.voters.moved hstep hworking p with
    hserver | ⟨fs, input, r, hacts, hmove, hserver, -, -⟩
  · rw [hserver] at hacc hself hmaj ⊢
    exact hold hacc hself hmaj
  rw [hserver] at hacc hself hmaj ⊢
  cases hmove with
  | proposed => simp at hmaj
  | committed => cases hacc
  | failed => cases hacc
  | accepted request locks hprom hnum =>
    obtain ⟨src, hs⟩ := hacts.request_sent
    exact absurd hself (accept_foreign h.proposals hs)
  | counted request response hbefore hnum hid hack =>
    obtain ⟨dst, ha⟩ := hacts.reply_answered
    obtain ⟨reply, rfl, hballot⟩ := h.routed.acceptAnswer _ _ _ _ ha
    obtain ⟨p', hp', hpeer⟩ := h.routed.accept ha.sent
    cases hp'
    have heq : request.ballot = (n.servers p).acceptNum := by
      rw [h.routed.serverId p] at hid
      have hself : (n.servers p).acceptNum.serverId = p := hself
      have hnum : reply.ballot.num = (n.servers p).acceptNum.num := hnum
      have hid : reply.ballot.serverId = p := hid
      rw [hballot] at hnum hid
      exact Ballot.eq_of_parts hnum (hid.trans hself.symm)
    refine ⟨dst, hpeer, request.r, ?_⟩
    show n'.Voted dst (n.servers p).acceptNum request.r
    rw [← heq]
    exact Voted.step (.inr ⟨some p, reply, hack, ha⟩) hstep
  | _ => exact hold hacc hself hmaj

/-- What a server has not voted for when it promises a ballot it does not vote for later. -/
theorem untouched_step (h : Agreeing c n) (hstep : Stepped c n e n') (hworking : e.working)
    (hguard : Each (Respects c) n e) (hpromised : n.Promised x b)
    (huntouched : n.voting.Untouched x b l) : n'.voting.Untouched x b l := by
  refine huntouched.later rfl ?_
  rintro b' hlt hslot hlive ⟨v, hv⟩
  rcases hv.before h.voters hstep hworking hguard with hold | ⟨hnum, -⟩
  · exact ⟨hslot.old h.proposals hstep (h.voted x b' v hold),
      hlive.old h.voters hstep hworking hold, v, hold⟩
  · have hlatest := h.slots.latest x b hpromised
    rw [hnum] at hlatest
    exact absurd hlatest (not_le.mpr hlt)

/-- A server that goes on to the accept phase has voted for no live ballot of the slot, and so has
the peer whose promise it has counted. -/
theorem guards_of_proposes (h : Agreeing c n) {request : TransferReq}
    (hproposes : (n.servers p).Proposes c request)
    (hself : (n.servers p).promisedNum.serverId = p) : Guards c n p (n.servers p).promisedNum := by
  have hprep := hproposes.2.1
  obtain ⟨x, reply, hack, hfree⟩ := h.majority p hprep hself hproposes.2.2.1
  have ⟨hyes, l₀, ha⟩ := hack
  have hpeer := (h.routed.prepare ha.sent).2
  rw [hself] at hpeer
  obtain ⟨reply', hreply, hballot, -⟩ := h.routed.prepareAnswer _ _ _ _ ha
  cases hreply
  refine ⟨x, hpeer, .inl ⟨hself, x, l₀, ha.sent⟩, .inr ⟨_, reply, hack⟩, fun l hown => ⟨?_, ?_⟩⟩
  · rintro b hlt hslot hlive ⟨v, hv⟩
    have hopened := h.opened p hprep hself
    rcases h.kept p b v l hv hlive hslot with hend | ⟨haccepted, rfl⟩
    · rw [hopened.slot l hown] at hend
      exact lt_irrefl _ hend
    · apply h.not_passedOver hprep hself hown hv hlive hslot
      rcases h.voters.held p with hzero | hheld
      · exact absurd ((h.proposals.promising p).bound _ (h.voted p _ v hv)).1 (by rw [hzero]; omega)
      · obtain rfl := hv.value hheld h.proposals
        exact hopened.passed haccepted
  · rintro b hlt hslot hlive ⟨v, hv⟩
    obtain ⟨hnum, hval⟩ := h.reported p x _ reply hack b v l hv hlive hlt hslot hown
    apply h.not_passedOver hprep hself hown hv hlive hslot
    have hpassed := hfree b hnum v hval
    rw [hballot] at hpassed
    dsimp only at hpassed
    rwa [hself] at hpassed

theorem guarded_step (h : Agreeing c n) (hstep : Stepped c n e n') (hworking : e.working)
    (hguard : Each (Respects c) n e) {dst : ℤ} {q : AcceptReq}
    (hs : n'.Sent (some p) dst (.accept q)) : Guards c n' p q.ballot := by
  have hlater : Guards c n p q.ballot → Guards c n' p q.ballot := by
    rintro ⟨x, hx, hp, hpx, huntouched⟩
    refine ⟨x, hx, hp.step hstep, hpx.step hstep, fun l hslot => ?_⟩
    obtain ⟨hup, hux⟩ := huntouched l (hslot.old h.proposals hstep hp)
    exact ⟨h.untouched_step hstep hworking hguard hp hup,
      h.untouched_step hstep hworking hguard hpx hux⟩
  apply hlater
  rcases hstep.sent_before hs with hs | ⟨fs, input, r, hacts, hr, -, ho⟩
  · exact h.guarded p dst q hs
  · obtain ⟨_, rfl, hproposes, hballot, -⟩ := hr.sent_accept ho
    have hself := (hguard.acts hacts).settles.1.2 q.r (by simp) hproposes
    rw [h.routed.serverId p] at hself
    rw [hballot]
    exact h.guards_of_proposes hproposes hself

/-- A proposer commits what it and a peer have voted for. -/
theorem commits_step (h : Agreeing c n) (hstep : Stepped c n e n')
    (hguard : Each (Respects c) n e) {dst : ℤ} {q : CommitReq}
    (hs : n'.Sent (some p) dst (.commit q)) : ∃ v, n'.Voted p q.ballot v ∧
      ∃ x ∈ c.peers p, ∃ v, n'.Voted x q.ballot v := by
  have hlater : (∃ v, n.Voted p q.ballot v ∧ ∃ x ∈ c.peers p, ∃ v, n.Voted x q.ballot v) →
      ∃ v, n'.Voted p q.ballot v ∧ ∃ x ∈ c.peers p, ∃ v, n'.Voted x q.ballot v := by
    rintro ⟨v, hv, x, hx, v', hv'⟩
    exact ⟨v, hv.step hstep, x, hx, v', hv'.step hstep⟩
  apply hlater
  rcases hstep.sent_before hs with hs | ⟨fs, input, r, hacts, hr, -, ho⟩
  · exact h.commits p dst q hs
  · obtain ⟨_, request, rfl, hcommits, hdst, rfl, -⟩ := hr.sent_commit ho
    have hself := (hguard.acts hacts).settles.2 request (by simp) hcommits
    rw [h.routed.serverId p] at hself
    obtain ⟨-, hpeers⟩ := h.voters.accounted.own p hcommits.2.2.1 hself
    rw [h.routed.stubs p] at hdst
    exact ⟨_, .inl ⟨hself, dst, hpeers dst hdst⟩,
      h.counted p hcommits.2.2.1 hself hcommits.2.2.2⟩

theorem done_step (h : Agreeing c n) (hstep : Stepped c n e n') (hworking : e.working)
    (hguard : Each (Respects c) n e)
    (hle : (n.servers p).lastInserted ≤ (n'.servers p).lastInserted) {dst : ℤ} {q : CommitReq}
    (hs : n'.Sent (some p) dst (.commit q)) (hslot : n'.Slot q.ballot l) :
    l < (n'.servers p).lastInserted := by
  have hold : n.Sent (some p) dst (.commit q) → l < (n'.servers p).lastInserted := by
    intro hs
    obtain ⟨v, hv, -⟩ := h.commits p dst q hs
    exact (h.done p dst q l hs (hslot.old h.proposals hstep (h.voted p _ v hv))).trans_le hle
  rcases hstep.sent_before hs with hs | ⟨fs, input, r, hacts, hr, hserver, ho⟩
  · exact hold hs
  rw [hserver]
  cases h.voters.move hacts hr hworking with
  | committed request d locks hcommits hlog =>
    obtain ⟨hdst, hq⟩ := Server.mem_broadcast.mp ho
    cases hq
    have hself := (hguard.acts hacts).settles.2 request rfl hcommits
    rw [h.routed.serverId p] at hself
    rw [h.routed.stubs p] at hdst
    obtain ⟨-, hpeers⟩ := h.voters.accounted.own p hcommits.2.2.1 hself
    have hpromised := h.voted p _ _ (.inl ⟨hself, dst, hpeers dst hdst⟩)
    have hbelow := h.slots.below p _ l hpromised (hslot.old h.proposals hstep hpromised)
    rw [h.slots.last p] at hbelow
    show l < (n.servers p).log.length
    omega
  | still input t response sent hpreparing htid hsyncs => cases hsyncs _ ho
  | opened => simp [Server.startRound, Server.mem_broadcast] at ho
  | proposed => simp [Server.mem_broadcast] at ho
  | _ => simp at ho

/-- Who goes on to the accept phase of an own round has a log that ends behind the slots of all live
ballots it has voted for. -/
theorem before_end_of_proposes (h : Agreeing c n) {request : TransferReq}
    (hproposes : (n.servers x).Proposes c request)
    (hself : (n.servers x).promisedNum.serverId = x) (hv : n.Voted x b v) (hlive : n.Live b)
    (hslot : n.Slot b l) : l < (n.servers x).lastInserted := by
  obtain ⟨y, hy, hown, -, huntouched⟩ := h.guards_of_proposes hproposes hself
  obtain ⟨l', hslot'⟩ := hown.slot
  have hopened := h.opened x hproposes.2.1 hself
  refine lt_of_le_of_ne (h.slots.below x b l (h.voted x b v hv) hslot) ?_
  intro heq
  rw [← hopened.slot l' hslot'] at heq
  rw [heq] at hslot
  exact (huntouched l' hslot').1 b (hopened.votes b v hv) hslot hlive ⟨v, hv⟩

/-- A later ballot that was proposed in the cluster is for a slot behind those of the live ballots
that a peer of their proposer has voted for. -/
theorem before_end_of_accept (h : Agreeing c n) (hsize : c.clusterSize = 3)
    {src : Option ℤ} {request : AcceptReq} (hs : n.Sent src x (.accept request))
    (hpromised : n.Promised x request.ballot) (hlt : b.num < request.ballot.num)
    (hv : n.Voted x b v) (hown : b.serverId ≠ x) (hlive : n.Live b) (hslot : n.Slot b l) :
    l < (n.servers x).lastInserted := by
  obtain ⟨p, rfl, hpeer⟩ := h.routed.accept hs
  obtain ⟨l', hslot'⟩ := hpromised.slot
  have hle := h.slots.grows x b _ l l' (h.voted x b v hv) hpromised hlt.le hslot hslot'
  have hbelow := h.slots.below x _ l' hpromised hslot'
  have hx := hv.peer h.proposals hown
  have hcluster : c.getClusterIdFromServerId b.serverId = c.getClusterIdFromServerId p := by
    rw [← (Constants.mem_peers.mp hx).2.2, (Constants.mem_peers.mp hpeer).2.2]
  have hguarded := (h.guarded p x request hs).guarded hslot'
  rw [← hcluster] at hguarded
  refine lt_of_lt_of_le (lt_of_le_of_ne hle ?_) hbelow
  intro hsame
  rw [hsame] at hslot
  exact (h.decided_of_voted hlive hx hv).not_below (Constants.Pair.meet hsize) hslot hguarded hlt

/-- A server whose log ends at the slot of a live ballot that it has voted for still holds it. -/
theorem kept_step (h : Agreeing c n) (hsize : c.clusterSize = 3) (hstep : Stepped c n e n')
    (hworking : e.working) (hguard : Each (Respects c) n e)
    (hle : ∀ x, (n.servers x).lastInserted ≤ (n'.servers x).lastInserted)
    (hv : n'.Voted x b v) (hlive : n'.Live b) (hslot : n'.Slot b l) :
    l < (n'.servers x).lastInserted ∨
      (n'.servers x).accepted = true ∧ (n'.servers x).acceptNum = b := by
  rcases hv.before h.voters hstep hworking hguard with hv | ⟨-, -, haccepted, hnum, -⟩
  swap
  · exact .inr ⟨haccepted, hnum⟩
  have hpromised := h.voted x b v hv
  have hslot₀ := hslot.old h.proposals hstep hpromised
  have hlive₀ := hlive.old h.voters hstep hworking hv
  rcases h.kept x b v l hv hlive₀ hslot₀ with hend | ⟨haccepted, hnum⟩
  · exact .inl (hend.trans_le (hle x))
  rcases h.voters.moved hstep hworking x with
    hserver | ⟨fs, input, r, hacts, hmove, hserver, -, -⟩
  · rw [hserver]
    exact .inr ⟨haccepted, hnum⟩
  cases hmove with
  | committed | released =>
    have hbelow := h.slots.below x b l hpromised hslot₀
    rw [h.slots.last x] at hbelow
    rw [hserver]
    left
    show l < (n.servers x).log.length
    omega
  | proposed request locks hproposes =>
    -- the new round is for a later slot
    have hself := (hguard.acts hacts).settles.1.2 request rfl hproposes
    rw [h.routed.serverId x] at hself
    exact .inl ((h.before_end_of_proposes hproposes hself hv hlive₀ hslot₀).trans_le (hle x))
  | accepted request locks hprom hnum' =>
    obtain ⟨src, hs⟩ := hacts.request_sent
    have hballot := (hguard.acts hacts).accepts hprom hnum'
    have hforeign := accept_foreign h.proposals hs
    by_cases heq : request.ballot = b
    · rw [hserver]
      exact .inr ⟨rfl, heq⟩
    -- the ballot that displaces it is for a later slot
    left
    have hpromised' : n.Promised x request.ballot := by
      rw [hballot]
      exact h.promised x hprom (by rw [← hballot]; exact hforeign)
    have hlt : b.num < request.ballot.num := by
      refine lt_of_le_of_ne ?_ fun hsame =>
        heq ((h.proposals.promising x).unique _ _ hpromised' hpromised hsame.symm)
      rw [hballot]
      exact h.slots.latest x b hpromised
    by_cases hown : b.serverId = x
    · rcases hlive with ⟨dst, hcommit⟩ | ⟨-, hheld⟩
      · rw [hown] at hcommit
        exact h.done_step hstep hworking hguard (hle x) hcommit hslot
      · rw [hown, hserver] at hheld
        exact absurd hheld heq
    · have hend := h.before_end_of_accept hsize hs hpromised' hlt hv hown hlive₀ hslot₀
      exact hend.trans_le (hle x)
  | _ =>
    rw [hserver]
    exact .inr ⟨haccepted, hnum⟩

/-- A promise reports the live ballot of its slot that its server has voted for. -/
theorem reported_step (h : Agreeing c n) (hslots' : Slotted n') (hstep : Stepped c n e n')
    (hworking : e.working) (hguard : Each (Respects c) n e) {reply : PrepareRes}
    (hack : n'.Acknowledged (some p) x b' reply) (hv : n'.Voted x b v) (hlive : n'.Live b)
    (hlt : b.num < b'.num) (hslot : n'.Slot b l) (hslot' : n'.Slot b' l) :
    reply.acceptNum = some b ∧ reply.acceptVal = some v := by
  rcases hv.before h.voters hstep hworking hguard with hv | ⟨-, hnum, -⟩
  swap
  · have hlatest := hslots'.latest x b' (.inr ⟨_, reply, hack⟩)
    rw [hnum] at hlatest
    exact absurd hlatest (not_le.mpr hlt)
  have hslot₀ := hslot.old h.proposals hstep (h.voted x b v hv)
  have hlive₀ := hlive.old h.voters hstep hworking hv
  obtain ⟨hyes, l₀, ha⟩ := hack
  have hold : n.Answered (some p) x (.prepare ⟨b', l₀⟩) (.prepare reply) →
      reply.acceptNum = some b ∧ reply.acceptVal = some v := by
    intro ha
    have hack : n.Acknowledged (some p) x b' reply := ⟨hyes, l₀, ha⟩
    exact h.reported p x b' reply hack b v l hv hlive₀ hlt hslot₀
      (hslot'.old h.proposals hstep (.inr ⟨_, reply, hack⟩))
  rcases hstep.answered_before ha with ha | ⟨fs, r, hacts, hr, -, hs, hres⟩
  · exact hold ha
  cases h.voters.move hacts hr hworking with
  | promised request hnum hlast =>
    cases hres
    have hend : l = (n.servers x).lastInserted :=
      (hslots'.one b' l l₀ hslot' ⟨_, x, ha.sent⟩).trans hlast
    rcases h.kept x b v l hv hlive₀ hslot₀ with hbefore | ⟨haccepted, rfl⟩
    · rw [hend] at hbefore
      exact absurd hbefore (lt_irrefl _)
    · rcases h.voters.held x with hzero | hheld
      · exact absurd ((h.proposals.promising x).bound _ (h.voted x _ v hv)).1
          (by rw [hzero]; exact lt_irrefl _)
      · simp [haccepted, hv.value hheld h.proposals]
  | still input t response sent hpreparing htid hsyncs hrefused =>
    have hno : reply.ack = false := (hrefused _ hres).1
    rw [hyes] at hno
    cases hno

theorem asks_step (h : Agreeing c n) (hstep : Stepped c n e n')
    (hle : (n.servers p).lastInserted ≤ (n'.servers p).lastInserted) {dst : ℤ} {q : SyncReq}
    (hs : n'.Sent (some p) dst (.sync q)) :
    -1 ≤ q.lastInserted ∧ q.lastInserted ≤ (n'.servers p).lastInserted := by
  have hold : n.Sent (some p) dst (.sync q) →
      -1 ≤ q.lastInserted ∧ q.lastInserted ≤ (n'.servers p).lastInserted := fun hs =>
    ⟨(h.asks p dst q hs).1, (h.asks p dst q hs).2.trans hle⟩
  rcases hstep.sent_before hs with hs | ⟨fs, input, r, hacts, hr, -, ho⟩
  · exact hold hs
  · rcases hr.sent_cases ho with ⟨hq, -⟩ | ⟨-, hq | ⟨v, hq⟩ | hq⟩
    · cases hq
      exact ⟨h.slots.lastInserted_bounded p, hle⟩
    · cases hq
    · cases hq
    · cases hq

end Agreeing
end Network
end TpcBank
