import TpcBank.DecidedBallots

/-! Agreement of the logs of a cluster: the entry of a committed ballot stands one behind the slot
of the ballot, so two servers have the same entry wherever both have one. -/
namespace TpcBank
open Transition
namespace Network

variable {c : Constants} {n n' : Network} {e : Event} {p x y : ℤ} {b : Ballot} {l : ℤ}
  {v : TransferReq} {entry : WALEntry}

namespace Agreeing

/-! ### The entries of the logs -/

/-- The entry one behind the slot of a decided ballot is that of its request. -/
theorem applied_of_decided (h : Agreeing c n) (hsize : c.clusterSize = 3) (hlive : n.Live b)
    (hx : x ∈ c.peers b.serverId) (hv : n.Voted x b v) (hslot : n.Slot b l)
    (hcluster : c.getClusterIdFromServerId b.serverId = c.getClusterIdFromServerId y)
    (hlt : l < (n.servers y).lastInserted) : v.tid ∈ committedTids (n.servers y).log := by
  have hbounded := h.slots.bounded b l hslot
  rw [h.slots.last y] at hlt
  have hlen : (l + 1).toNat < (n.servers y).log.length := by omega
  have hget := List.getElem?_eq_getElem hlen
  obtain ⟨b', v', hcommitted, hslot', heq⟩ := h.logs y _ _ hget
  rw [show ((l + 1).toNat : ℤ) - 1 = l by omega] at hslot'
  obtain ⟨z, hz, hv'⟩ := h.committed_peer hcommitted
  obtain rfl := h.decided_unique hsize hlive (committed_live hcommitted) hx hz hv hv'
    (hcluster.trans hcommitted.cluster.symm) hslot hslot'
  obtain rfl := hv.value hv' h.proposals
  refine List.mem_map.mpr ⟨_, List.mem_filter.mpr ⟨List.mem_of_getElem? hget, ?_⟩, ?_⟩
  · rw [heq]
    rfl
  · rw [heq]
    rfl

/-- A ballot that is applied once is applied where the log ends at its slot. -/
theorem slot_of_decided (h : Agreeing c n) (hsize : c.clusterSize = 3) (hlive : n.Live b)
    (hx : x ∈ c.peers b.serverId) (hv : n.Voted x b v)
    (hcluster : c.getClusterIdFromServerId b.serverId = c.getClusterIdFromServerId y)
    (hpromised : n.Promised y b) (honce : v.tid ∉ committedTids (n.servers y).log) :
    n.Slot b ((n.servers y).log.length - 1) := by
  obtain ⟨l, hslot⟩ := hpromised.slot
  have hend := h.slots.last y
  unfold Server.EndsAtLast at hend
  rcases (h.slots.below y b l hpromised hslot).lt_or_eq with hlt | heq
  · exact absurd (h.applied_of_decided hsize hlive hx hv hslot hcluster hlt) honce
  · rw [← hend, ← heq]
    exact hslot

/-- The entries behind the log of a server that were reported to it: nothing was appended since
it asked. -/
theorem asked_at_end (h : Agreeing c n) (hsize : c.clusterSize = 3) {dst : ℤ} {q : SyncReq}
    {res : SyncRes} (ha : n.Answered (some p) dst (.sync q) (.sync res)) (hack : res.ack = true)
    (honce : ∀ tid ∈ committedTids (res.logs.map Server.fromLogEntry),
      tid ∉ committedTids (n.servers p).log) :
    q.lastInserted = (n.servers p).lastInserted := by
  obtain ⟨hne, hplaced⟩ := h.syncs p dst q res ha
  obtain ⟨first, rest, hlogs⟩ := List.exists_cons_of_ne_nil (hne hack)
  have hfirst := hplaced 0 first (by rw [hlogs]; rfl)
  obtain ⟨b, v, hcommitted, hslot, heq⟩ := hfirst
  rw [show q.lastInserted + 1 + ((0 : ℕ) : ℤ) - 1 = q.lastInserted by omega] at hslot
  rcases (h.asks p dst q ha.sent).2.lt_or_eq with hlt | hend
  · obtain ⟨x, hx, hv⟩ := h.committed_peer hcommitted
    have happlied := h.applied_of_decided hsize (committed_live hcommitted) hx hv hslot
      hcommitted.cluster hlt
    refine absurd happlied (honce v.tid ?_)
    rw [hlogs]
    refine List.mem_map.mpr ⟨_, List.mem_filter.mpr ⟨List.mem_cons_self, ?_⟩, ?_⟩
    · rw [heq]
      rfl
    · rw [heq]
      rfl
  · exact hend

/-- The entry of a decided ballot that is appended to a log stands one behind its slot. -/
theorem placed_last (h : Agreeing c n) (hsize : c.clusterSize = 3) (hstep : Stepped c n e n')
    (hlive : n.Live b) (hx : x ∈ c.peers b.serverId) (hv : n.Voted x b v)
    (hcluster : c.getClusterIdFromServerId b.serverId = c.getClusterIdFromServerId y)
    (hpromised : n.Promised y b) (honce : v.tid ∉ committedTids (n.servers y).log) {dst : ℤ}
    (hsent : n'.Sent (some b.serverId) dst (.commit ⟨b⟩)) :
    n'.Placed c y (n.servers y).log.length (committedEntry v b) := by
  have hslot := h.slot_of_decided hsize hlive hx hv hcluster hpromised honce
  have hproposer := hv.proposer h.proposals
  exact ⟨b, v, ⟨hcluster, ⟨dst, hsent⟩, hproposer.step hstep⟩, hslot.step hstep, rfl⟩

/-- The poll that finds a majority of accepts is that of the transfer that was proposed. -/
theorem committed_request (h : Agreeing c n) {fs : FileSystem} {request : TransferReq}
    (hacts : Acts n e x fs (.request (.transfer request))) (hcommits : (n.servers x).Commits request)
    (hself : (n.servers x).acceptNum.serverId = x) (hy : y ∈ c.peers x) :
    request = (n.servers x).acceptVal := by
  obtain ⟨htid, hpeers⟩ := h.voters.accounted.own x hcommits.2.2.1 hself
  obtain ⟨call, hmem, -, -, hrequest, -⟩ := h.voters.asked.proposed x y _ (hpeers y hy)
  have hrunning := hcommits.1.2 ((h.voters.accounted.phases x).accept hcommits.2.2.1)
  obtain ⟨src, call', hmem', -, -, hrequest'⟩ := hacts.request_sent
  obtain rfl := h.voters.unique.eq hmem' hmem hrequest' hrequest (hrunning.symm.trans htid.symm)
  exact Request.transfer.inj (hrequest'.symm.trans hrequest)

theorem committed_placed (h : Agreeing c n) (hsize : c.clusterSize = 3) (hstep : Stepped c n e n')
    {fs : FileSystem} {request : TransferReq}
    (hacts : Acts n e x fs (.request (.transfer request))) (hcommits : (n.servers x).Commits request)
    (hself : (n.servers x).acceptNum.serverId = x)
    (honce : request.tid ∉ committedTids (n.servers x).log)
    (hsends : ∀ o ∈ (n.servers x).broadcast (.commit ⟨(n.servers x).acceptNum⟩),
      n'.Sent (some x) o.dst o.request) :
    n'.Placed c x (n.servers x).log.length (committedEntry request (n.servers x).acceptNum) := by
  obtain ⟨y, hy, v, hv⟩ := h.counted x hcommits.2.2.1 hself hcommits.2.2.2
  obtain ⟨-, hpeers⟩ := h.voters.accounted.own x hcommits.2.2.1 hself
  have hown : n.Voted x (n.servers x).acceptNum (n.servers x).acceptVal :=
    .inl ⟨hself, y, hpeers y hy⟩
  obtain rfl := hown.value hv h.proposals
  rw [h.committed_request hacts hcommits hself hy] at honce ⊢
  have hlive : n.Live (n.servers x).acceptNum := by
    refine .inr ?_
    rw [hself]
    exact ⟨hcommits.2.2.1, rfl⟩
  have hsent : n'.Sent (some x) y (.commit ⟨(n.servers x).acceptNum⟩) := by
    refine hsends ⟨y, _⟩ (Server.mem_broadcast.mpr ⟨?_, rfl⟩)
    rw [h.routed.stubs x]
    exact hy
  exact h.placed_last hsize hstep hlive (by rw [hself]; exact hy) hv (by rw [hself])
    (h.voted x _ _ hown) honce (by rw [hself]; exact hsent)

/-- A Commit that releases a request is for the ballot that its server has voted for. -/
theorem released_placed (h : Agreeing c n) (hsize : c.clusterSize = 3) (hstep : Stepped c n e n')
    {src : Option ℤ} {q : CommitReq} (hs : n.Sent src x (.commit q))
    (hreleases : (n.servers x).Releases q)
    (honce : (n.servers x).acceptVal.tid ∉ committedTids (n.servers x).log) :
    n'.Placed c x (n.servers x).log.length
      (committedEntry (n.servers x).acceptVal (n.servers x).acceptNum) := by
  have hpos := h.voters.commit_pos hs
  rcases h.voters.held x with hzero | hheld
  · rw [← hreleases.2.2, hzero] at hpos
    exact absurd hpos (lt_irrefl _)
  obtain ⟨p, rfl, hpeer⟩ := h.routed.commit hs
  obtain ⟨v, hv, y, hy, v', hv'⟩ := h.commits p x q hs
  obtain ⟨a, dst, hsa, -, hcluster⟩ := hheld.proposed h.routed
  obtain ⟨dst', hsp⟩ := hv.sent h.proposals
  have hp : q.ballot.serverId = p := by
    obtain ⟨w, hw, -⟩ := h.voters.accounted.commits p x q hs
    exact ((h.proposals.proposing p).own x _ hw).1
  rw [hp] at hsp
  have hsame := h.proposals.unique hsize
    (hcluster.trans (Constants.mem_peers.mp hpeer).2.2) hsa hsp hreleases.2.2
  have hballot : (n.servers x).acceptNum = q.ballot := congrArg AcceptReq.ballot hsame.2
  rw [hballot] at hheld ⊢
  obtain rfl := hheld.value hv' h.proposals
  rw [← hp] at hs hy hpeer
  exact h.placed_last hsize hstep (.inl ⟨x, hs⟩) hy hv' (Constants.mem_peers.mp hpeer).2.2.symm
    (h.voted x _ _ hheld) honce (hs.step hstep)

theorem logs_step (h : Agreeing c n) (hsize : c.clusterSize = 3) (hstep : Stepped c n e n')
    (hworking : e.working) (hguard : Each (Respects c) n e) {i : ℕ}
    (hentry : (n'.servers x).log[i]? = some entry) : n'.Placed c x i entry := by
  have hold : (n.servers x).log[i]? = some entry → n'.Placed c x i entry :=
    fun hentry => (h.logs x i entry hentry).step hstep
  have happend : ∀ {log new : List WALEntry}, log = (n.servers x).log ++ new →
      (∀ (j : ℕ) entry, new[j]? = some entry →
        n'.Placed c x ((n.servers x).log.length + j) entry) →
      log[i]? = some entry → n'.Placed c x i entry := by
    rintro log new rfl hnew hentry
    rcases lt_or_ge i (n.servers x).log.length with hlt | hge
    · rw [List.getElem?_append_left hlt] at hentry
      exact hold hentry
    · rw [List.getElem?_append_right hge] at hentry
      have hplaced := hnew _ entry hentry
      rwa [show ((n.servers x).log.length + (i - (n.servers x).log.length : ℕ) : ℤ) = i by omega]
        at hplaced
  have hsnoc : ∀ {log : List WALEntry} {last : WALEntry}, log = (n.servers x).log ++ [last] →
      n'.Placed c x (n.servers x).log.length last → log[i]? = some entry →
      n'.Placed c x i entry := by
    intro log last hlog hlast
    refine happend hlog fun j entry hentry => ?_
    rw [List.getElem?_singleton] at hentry
    split_ifs at hentry with hzero
    cases hentry
    subst hzero
    rwa [Nat.cast_zero, add_zero]
  rcases h.voters.moved hstep hworking x with
    hserver | ⟨fs, input, r, hacts, hmove, hserver, hsends, -⟩
  · rw [hserver] at hentry
    exact hold hentry
  have hfs := hacts.working hworking
  have hrespects := hguard.acts hacts
  rw [hserver] at hentry
  cases hmove with
  | committed request d locks hcommits hlog =>
    have hself := hrespects.settles.2 request rfl hcommits
    rw [h.routed.serverId x] at hself
    exact hsnoc hlog (h.committed_placed hsize hstep hacts hcommits hself
      (hrespects.once hcommits (hfs 0)) hsends) hentry
  | released request d locks hreleases htwo hlog =>
    obtain ⟨src, hs⟩ := hacts.request_sent
    exact hsnoc hlog (h.released_placed hsize hstep hs hreleases
      (hrespects.once hreleases htwo (hfs 0))) hentry
  | synced request response d hack hlog =>
    obtain ⟨dst, ha⟩ := hacts.reply_answered
    have hend := h.asked_at_end hsize ha hack (hrespects.once rfl hack).2
    refine happend hlog (fun j entry hentry => ?_) hentry
    rw [List.getElem?_map, Option.map_eq_some_iff] at hentry
    obtain ⟨reported, hreported, rfl⟩ := hentry
    have hplaced := ((h.syncs x dst request response ha).2 j reported hreported).step hstep
    rw [hend, h.slots.last x] at hplaced
    rwa [sub_add_cancel] at hplaced
  | _ => exact hold hentry

theorem syncs_step (h : Agreeing c n) (hstep : Stepped c n e n') {dst : ℤ} {q : SyncReq}
    {res : SyncRes} (ha : n'.Answered (some p) dst (.sync q) (.sync res)) :
    (res.ack = true → res.logs ≠ []) ∧ ∀ (i : ℕ) reported, res.logs[i]? = some reported →
      n'.Placed c p (q.lastInserted + 1 + i) (Server.fromLogEntry reported) := by
  have hold : n.Answered (some p) dst (.sync q) (.sync res) →
      (res.ack = true → res.logs ≠ []) ∧ ∀ (i : ℕ) reported, res.logs[i]? = some reported →
        n'.Placed c p (q.lastInserted + 1 + i) (Server.fromLogEntry reported) := by
    intro ha
    obtain ⟨hne, hplaced⟩ := h.syncs p dst q res ha
    exact ⟨hne, fun i reported hreported => (hplaced i reported hreported).step hstep⟩
  rcases hstep.answered_before ha with ha | ⟨fs, r, hacts, hr, -, hs, hres⟩
  · exact hold ha
  have hbounded := (h.asks p dst q hs).1
  have hlast := h.slots.last dst
  unfold Server.EndsAtLast at hlast
  obtain rfl := Response.sync.inj (hr.response_sync rfl hres)
  have hcluster := h.routed.sync hs
  unfold Server.processSyncCall
  split_ifs with hlt hneg
  · omega
  · refine ⟨fun _ => ?_, fun i reported hreported => ?_⟩
    · rw [Ne, List.map_eq_nil_iff, List.drop_eq_nil_iff]
      omega
    · rw [List.getElem?_map, Option.map_eq_some_iff] at hreported
      obtain ⟨w, hw, rfl⟩ := hreported
      rw [List.getElem?_drop] at hw
      have hplaced := (h.logs dst _ w hw).step hstep
      rw [Placed, hcluster] at hplaced
      rw [Server.fromLogEntry_getLogEntryFromLocalLog]
      rwa [show (((q.lastInserted + 1).toNat + i : ℕ) : ℤ) = q.lastInserted + 1 + i by omega]
        at hplaced
  · exact ⟨nofun, nofun⟩

/-! ### The invariant of the run -/

theorem init (c : Constants) (disk : ℤ → Disk) : Agreeing c (Network.init c disk) := by
  have hsent : ∀ src dst request, ¬ (Network.init c disk).Sent src dst request := by
    rintro src dst request ⟨call, hmem, -⟩
    cases hmem
  have hvoted : ∀ x b v, ¬ (Network.init c disk).Voted x b v := by
    rintro x b v (⟨-, dst, hs⟩ | ⟨src, reply, -, ha⟩)
    · exact hsent _ _ _ hs
    · exact hsent _ _ _ ha.sent
  refine ⟨Voters.init c disk, Slotted.init c disk, nofun, nofun, fun x b v hv => ?_, ?_, nofun, nofun,
    ?_, fun x b v l hv => ?_, ?_, ?_, ?_, nofun, ?_, ?_⟩
  · exact absurd hv (hvoted x b v)
  · exact fun _ _ _ _ _ _ hs => absurd hs (hsent _ _ _)
  · exact fun _ _ _ hs => absurd hs (hsent _ _ _)
  · exact absurd hv (hvoted x b v)
  · exact fun _ _ _ _ _ _ _ _ hv => absurd hv (hvoted _ _ _)
  · exact fun _ _ _ hs => absurd hs (hsent _ _ _)
  · exact fun _ _ _ _ hs => absurd hs (hsent _ _ _)
  · exact fun _ _ _ hs => absurd hs (hsent _ _ _)
  · exact fun _ _ _ _ ha => absurd ha.sent (hsent _ _ _)

theorem step (h : Agreeing c n) (hsize : c.clusterSize = 3) (hnext : Network.step c n e = some n')
    (hworking : e.working) (hwithin : TransfersWithin c n e) (hdistinct : DistinctTransfers n e)
    (hguard : Each (Respects c) n e) : Agreeing c n' := by
  have hstep := step_stepped hnext
  have hvoters := h.voters.step hsize hstep hworking hwithin hdistinct
    (hguard.mono fun _ _ _ hg => hg.settles)
  have hproposals := hvoters.accounted.proposals
  have hslots := h.slots.step h.voters hnext hworking
  have hle : ∀ x, (n.servers x).lastInserted ≤ (n'.servers x).lastInserted :=
    fun x => h.slots.lastInserted_le hslots.last ((step_stepped hnext).log_grows x)
  exact {
    voters := hvoters
    slots := hslots
    majority := fun p => (h.majority p).step (fun _ _ _ hpre hfree => hfree.later hpre) h.routed
      hstep (hguard.mono fun _ _ _ hg => hg.counts)
    promised := fun x hprom hne => h.promised_step hstep hworking hprom hne
    voted := fun x b v hv => h.voted_step hproposals hstep hworking hguard hv
    once := fun p p' dst dst' q q' hs hs' htid => h.once_step hstep hs hs' htid
    opened := fun p hprep hself => h.opened_step hstep hworking hguard hprep hself
    counted := fun p hacc hself hmaj => h.counted_step hstep hworking hacc hself hmaj
    guarded := fun p dst q hs => h.guarded_step hstep hworking hguard hs
    kept := fun x b v l hv hlive hslot =>
      h.kept_step hsize hstep hworking hguard hle hv hlive hslot
    reported := fun p x b' reply hack b v l hv hlive hlt hslot hslot' =>
      h.reported_step hslots hstep hworking hguard hack hv hlive hlt hslot hslot'
    commits := fun p dst q hs => h.commits_step hstep hguard hs
    done := fun p dst q l hs hslot => h.done_step hstep hworking hguard (hle p) hs hslot
    logs := fun x i entry hentry => h.logs_step hsize hstep hworking hguard hentry
    asks := fun p dst q hs => h.asks_step hstep (hle p) hs
    syncs := fun p dst q res ha => h.syncs_step hstep ha }

end Agreeing

/-- A transfer that was answered with `ack = true` stands in the log of its server. -/
def AnswersLogged (n : Network) : Prop :=
  ∀ src p request, n.Answered src p (.transfer request) (.transfer ⟨true, request.tid⟩) →
    ∃ (i : ℕ) (entry : WALEntry), (n.servers p).log[i]? = some entry ∧ entry.tid = request.tid ∧
      entry.txn = request.txn

theorem AnswersLogged.step (h : AnswersLogged n) (hnext : Network.step c n e = some n')
    (hworking : e.working) : AnswersLogged n' := by
  intro src p request ha
  have hold : n.Answered src p (.transfer request) (.transfer ⟨true, request.tid⟩) →
      ∃ (i : ℕ) (entry : WALEntry), (n'.servers p).log[i]? = some entry ∧
        entry.tid = request.tid ∧ entry.txn = request.txn := by
    intro ha
    obtain ⟨i, entry, hentry, htid, htxn⟩ := h src p request ha
    obtain ⟨new, hnew⟩ := (step_stepped hnext).log_grows p
    refine ⟨i, entry, ?_, htid, htxn⟩
    rw [← hnew, List.getElem?_append_left (List.getElem?_eq_some_iff.mp hentry).1]
    exact hentry
  rcases (step_stepped hnext).answered_before ha with ha | ⟨fs, r, hacts, hr, hserver, -, hres⟩
  · exact hold ha
  rw [hserver]
  generalize hinput : Input.request (.transfer request) = input at hr
  cases hr with
  | committed request' d hown hprep hacc hmaj hd =>
    cases hinput
    have hlog : d.log = (n.servers p).log ++ [committedEntry request (n.servers p).acceptNum] := by
      rw [hd, Server.commitTransaction_data_log (hacts.working hworking)]
    refine ⟨(n.servers p).log.length, committedEntry request (n.servers p).acceptNum, ?_, rfl, rfl⟩
    show d.log[_]? = _
    rw [hlog, List.getElem?_concat_length]
  | idle input response hplain =>
    subst hinput
    cases hplain _ hres
  | rejected => cases hres
  | failed => cases hres
  | opened => cases hres
  | accepting => cases hres
  | decided isCommit request => cases isCommit <;> cases hinput
  | _ => cases hinput

/-- The servers of a cluster agree on the transfer at every position of their logs, and a transfer
that was answered with `ack = true` is displaced by no other one. -/
structure Agreement (c : Constants) (n : Network) : Prop where
  agree : ∀ a b, c.getClusterIdFromServerId a = c.getClusterIdFromServerId b →
    ∀ (i : ℕ) entry entry', (n.servers a).log[i]? = some entry →
      (n.servers b).log[i]? = some entry' → entry.tid = entry'.tid ∧ entry.txn = entry'.txn
  answered : ∀ src a request,
    n.Answered src a (.transfer request) (.transfer ⟨true, request.tid⟩) →
      ∃ i : ℕ, i < (n.servers a).log.length ∧
        ∀ b, c.getClusterIdFromServerId b = c.getClusterIdFromServerId a →
          ∀ entry, (n.servers b).log[i]? = some entry →
            entry.tid = request.tid ∧ entry.txn = request.txn

/-- Agreement, in every run of transfers within a cluster of three servers whose rounds respect
what others have decided. -/
theorem reaches_agreement (hsize : c.clusterSize = 3) {disk : ℤ → Disk} {es : List Event}
    (h : Reaches c (fun n e => (e.working ∧ TransfersWithin c n e ∧ DistinctTransfers n e) ∧
      Each (Respects c) n e) disk es n) : Agreement c n := by
  have hinv : Agreeing c n ∧ AnswersLogged n := by
    refine h.invariant (I := fun n => Agreeing c n ∧ AnswersLogged n) ⟨.init c disk, ?_⟩ ?_
    · rintro src p request ⟨call, hmem, -⟩
      cases hmem
    · rintro n e n' ⟨hagreeing, hlogged⟩ ⟨⟨hworking, hwithin, hdistinct⟩, hguard⟩ hstep
      exact ⟨hagreeing.step hsize hstep hworking hwithin hdistinct hguard,
        hlogged.step hstep hworking⟩
  obtain ⟨hagreeing, hlogged⟩ := hinv
  constructor
  · intro a b hcluster i entry entry' ha hb
    obtain rfl := hagreeing.agree hsize hcluster ha hb
    exact ⟨rfl, rfl⟩
  · intro src a request hans
    obtain ⟨i, entry, hentry, htid, htxn⟩ := hlogged src a request hans
    refine ⟨i, (List.getElem?_eq_some_iff.mp hentry).1, fun b hcluster entry' hentry' => ?_⟩
    obtain rfl := hagreeing.agree hsize hcluster hentry' hentry
    exact ⟨htid, htxn⟩

/-- Server 1 commits a transfer, server 2 learns of it, and server 3 catches up before it commits
its own. -/
def caughtUpRun : List Event :=
  [.call 1 (.transfer ⟨⟨1, 2, 3⟩, 1⟩), .arrives 0, .arrives 1, .returns 1, .arrives 0, .arrives 3,
    .returns 3, .arrives 0, .arrives 5, .call 3 (.transfer ⟨⟨3, 4, 1⟩, 2⟩), .arrives 7, .arrives 8,
    .returns 8, .arrives 10, .returns 10, .arrives 7, .arrives 11, .returns 11, .arrives 7,
    .arrives 13, .returns 13, .arrives 7, .arrives 15]

theorem agreement_caughtUpRun :
    ∃ n, run (step .single) (init .single fun _ => .empty) caughtUpRun = some n ∧
      (n.servers 1).log.map WALEntry.tid = [1, 2] ∧ (n.servers 3).log.map WALEntry.tid = [1, 2] ∧
      Agreement .single n := by
  obtain ⟨n, hn, hcheck⟩ := (Option.any_eq_true _ _).mp
    (show (runIf (step .single) (fun n e => (TransfersWithin .single n e ∧ DistinctTransfers n e) ∧
      Each (Respects .single) n e) (init .single fun _ => .empty) caughtUpRun).any (fun n => decide
        ((n.servers 1).log.map WALEntry.tid = [1, 2] ∧
          (n.servers 3).log.map WALEntry.tid = [1, 2])) = true by decide +kernel)
  have hguard := runs_of_runIf hn
  have hworking : Runs (step .single) (fun _ e => e.working) (init .single fun _ => .empty)
      caughtUpRun n := by
    refine runs_of_forall hguard.run_eq ?_
    simp [caughtUpRun, Event.arrives, Event.returns, Event.working, FileSystem.allOpen_working]
  obtain ⟨hfirst, hthird⟩ := of_decide_eq_true hcheck
  refine ⟨n, hguard.run_eq, hfirst, hthird, ?_⟩
  exact reaches_agreement rfl ((hworking.and hguard).mono fun _ _ h => ⟨⟨h.1, h.2.1⟩, h.2.2⟩)

/-- Server 1 commits a transfer that server 2 has accepted, and answers it with `ack = true`. No
Commit is delivered. Server 3 opens a round, the promise of server 2 reports the transfer, and
server 3 has its own transfer accepted and committed at the same position. -/
def displacedRun : List Event :=
  [.call 1 (.transfer ⟨⟨1, 2, 3⟩, 1⟩), .arrives 0, .arrives 1, .arrives 2, .returns 1, .arrives 0,
    .arrives 3, .returns 3, .arrives 0, .call 3 (.transfer ⟨⟨3, 4, 1⟩, 2⟩), .arrives 7, .arrives 9,
    .returns 9, .arrives 7, .arrives 11, .returns 11, .arrives 7]

theorem not_agreement_displacedRun :
    ∃ n, Reaches .single (fun n e => e.working ∧ TransfersWithin .single n e ∧ DistinctTransfers n e)
      (fun _ => .empty) displacedRun n ∧
      n.Answered none 1 (.transfer ⟨⟨1, 2, 3⟩, 1⟩) (.transfer ⟨true, 1⟩) ∧ ¬ Agreement .single n := by
  obtain ⟨n, hn, hcheck⟩ := (Option.any_eq_true _ _).mp
    (show (runIf (step .single) (fun n e => TransfersWithin .single n e ∧ DistinctTransfers n e)
      (init .single fun _ => .empty) displacedRun).any (fun n => decide
        (n.Answered none 1 (.transfer ⟨⟨1, 2, 3⟩, 1⟩) (.transfer ⟨true, 1⟩) ∧
          (n.servers 1).log.map WALEntry.tid = [1] ∧
          (n.servers 3).log.map WALEntry.tid = [2])) = true by decide +kernel)
  have hguard := runs_of_runIf hn
  have hworking : Runs (step .single) (fun _ e => e.working) (init .single fun _ => .empty)
      displacedRun n := by
    refine runs_of_forall hguard.run_eq ?_
    simp [displacedRun, Event.arrives, Event.returns, Event.working, FileSystem.allOpen_working]
  obtain ⟨hans, hfirst, hthird⟩ := of_decide_eq_true hcheck
  refine ⟨n, hworking.and hguard, hans, fun hagreement => ?_⟩
  obtain ⟨entry, hentry, htid⟩ := List.map_eq_singleton_iff.mp hfirst
  obtain ⟨entry', hentry', htid'⟩ := List.map_eq_singleton_iff.mp hthird
  have hsame := (hagreement.agree 1 3 rfl 0 entry entry' (by rw [hentry]; rfl)
    (by rw [hentry']; rfl)).1
  rw [htid, htid'] at hsame
  exact absurd hsame (by decide)

end Network
end TpcBank
