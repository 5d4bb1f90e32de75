import TpcBank.LockOwners
import TpcBank.Quorums

/-! What stands behind the two checks against `MAJORITY`: a proposer and one peer. In a cluster of
at most three servers two such pairs meet. -/
namespace TpcBank
open Transition

namespace Server

variable {c : Constants} {fs : FileSystem} {s : Server} {input : Input} {r : Handled}

/-- A server that awaits prepare replies under the ballot of a peer did so before, or has just
acknowledged that ballot. -/
theorem Acted.foreign_cases (h : Acted c fs s input r)
    (hawait : r.server.awaitPrepareDecision = true)
    (hne : r.server.promisedNum.serverId ≠ s.serverId) :
    (s.awaitPrepareDecision = true ∧ r.server.promisedNum = s.promisedNum) ∨
      ∃ request reply, input = .request (.prepare request) ∧
        r.response = some (.prepare reply) ∧ reply.ack = true ∧
        r.server.promisedNum = request.ballot := by
  cases h with
  | opened => exact absurd rfl hne
  | promised request => exact .inr ⟨request, _, rfl, rfl, rfl, rfl⟩
  | prepareCounted request response ahead sent hprep => exact .inl ⟨hprep, rfl⟩
  | rejected => cases hawait
  | accepting => cases hawait
  | finished => cases hawait
  | committed => cases hawait
  | _ => exact .inl ⟨hawait, rfl⟩

/-- What a handler leaves as it was when it starts no accept phase: it sends no Accept, the
number of a new promise is above `ballot_num`, the ballot of a new accepted value has the number
of the promise, and a success is counted only for an acknowledged Accept. -/
structure Steady (s : Server) (input : Input) (r : Handled) : Prop where
  silent : ∀ dst q, (⟨dst, .accept q⟩ : OutCall) ∉ r.sent
  await : r.server.awaitAcceptDecision = true → s.awaitAcceptDecision = true
  promised : s.ballotNum < r.server.promisedNum.num ∨ r.server.promisedNum = s.promisedNum ∧
    (r.server.awaitPrepareDecision = true → s.awaitPrepareDecision = true)
  accepted : r.server.acceptNum.num = s.acceptNum.num ∨
    r.server.acceptNum.num = s.promisedNum.num
  counted : 2 ≤ r.server.acceptSuccesses → 2 ≤ s.acceptSuccesses ∨
    ∃ request response, input = .reply (.accept request) .ok response ∧
      response.toAccept.ballot.num = s.acceptNum.num ∧
      response.toAccept.ballot.serverId = s.serverId ∧ response.toAccept.ack = true

/-- A poll that goes on to the accept phase. -/
structure Starts (c : Constants) (s : Server) (request : TransferReq) (r : Handled) : Prop where
  proposes : s.Proposes c request
  sent : ∀ dst q, (⟨dst, .accept q⟩ : OutCall) ∈ r.sent → q = ⟨s.promisedNum, request⟩
  promised : r.server.promisedNum = s.promisedNum ∧ r.server.ballotNum = s.ballotNum
  accepted : r.server.acceptNum = s.promisedNum ∧ r.server.acceptSuccesses = 1
  await : r.server.awaitPrepareDecision = false

theorem Acted.starts_or_steady (h : Acted c fs s input r) :
    (∃ request, s.starting c input = some request ∧ s.Starts c request r) ∨ s.Steady input r := by
  have hcommits : ∀ dst q b, (⟨dst, .accept q⟩ : OutCall) ∉ s.broadcast (.commit b) := by
    intro dst q b ho
    cases (mem_broadcast.mp ho).2
  cases h with
  | accepting isCrossShard request d hown hprep hmaj hcond =>
    have hproposes : s.Proposes c request := ⟨hown, hprep, hmaj, hcond⟩
    refine .inl ⟨request, starting_eq_some hproposes, hproposes, fun dst q ho => ?_, ⟨rfl, rfl⟩,
      ⟨rfl, rfl⟩, rfl⟩
    simpa using (mem_broadcast.mp ho).2
  | opened isCrossShard request hown hprep hacc =>
    refine .inr ⟨fun dst q ho => ?_, id, .inl (Int.lt_succ _), .inl rfl, .inl⟩
    cases (mem_broadcast.mp ho).2
  | finished request hown hprep hacc hmaj =>
    exact .inr ⟨fun dst q => hcommits dst q _, nofun, .inr ⟨rfl, nofun⟩, .inl rfl, .inl⟩
  | committed request d hown hprep hacc hmaj hd =>
    exact .inr ⟨fun dst q => hcommits dst q _, nofun, .inr ⟨rfl, nofun⟩, .inl rfl, .inl⟩
  | rejected => exact .inr ⟨fun _ _ => List.not_mem_nil, id, .inr ⟨rfl, nofun⟩, .inl rfl, .inl⟩
  | failed => exact .inr ⟨fun _ _ => List.not_mem_nil, nofun, .inr ⟨rfl, id⟩, .inl rfl, .inl⟩
  | promised request hconn hnum =>
    exact .inr ⟨fun _ _ => List.not_mem_nil, id, .inl hnum, .inl rfl, .inl⟩
  | refused request inSync res sent hack hballot hlatest hsent =>
    refine .inr ⟨fun dst q ho => ?_, id, .inr ⟨rfl, id⟩, .inl rfl, .inl⟩
    cases (hsent _ ho).1
  | accepted request d hconn hprom hnum =>
    exact .inr ⟨fun _ _ => List.not_mem_nil, id, .inr ⟨rfl, id⟩, .inr hnum, .inl⟩
  | prepareCounted request response ahead sent hprep hnum hid hsent =>
    refine .inr ⟨fun dst q ho => ?_, id, .inr ⟨rfl, fun _ => hprep⟩, .inl rfl, .inl⟩
    cases hsent _ ho
  | acceptCounted request response hacc hnum hid hack =>
    exact .inr ⟨fun _ _ => List.not_mem_nil, id, .inr ⟨rfl, id⟩, .inl rfl,
      fun _ => .inr ⟨request, response, rfl, hnum, hid, hack⟩⟩
  | _ => exact .inr ⟨fun _ _ => List.not_mem_nil, id, .inr ⟨rfl, id⟩, .inl rfl, .inl⟩

/-- A poll that finds a majority of promises. -/
def PassesPrepare (s : Server) (request : TransferReq) : Prop :=
  s.Owns request.tid ∧ s.awaitPrepareDecision = true ∧ majority ≤ s.prepareSuccesses

instance (s : Server) (request : TransferReq) : Decidable (s.PassesPrepare request) :=
  inferInstanceAs (Decidable (_ ∧ _))

end Server

namespace Network

variable {c : Constants} {n n' : Network} {e : Event} {p : ℤ}

/-! ### Promises -/

/-- While a server awaits prepare replies under the ballot of a peer, it has acknowledged that
ballot. -/
def PromisedForeign (n : Network) (p : ℤ) : Prop :=
  (n.servers p).awaitPrepareDecision = true → (n.servers p).promisedNum.serverId ≠ p →
    ∃ src reply, n.Acknowledged src p (n.servers p).promisedNum reply

theorem PromisedForeign.step (h : PromisedForeign n p) (hrouted : Routed c n)
    (hstep : Stepped c n e n') : PromisedForeign n' p := by
  have hquiet : n'.servers p = n.servers p → PromisedForeign n' p := by
    intro hserver hawait hne
    rw [hserver] at hawait hne ⊢
    obtain ⟨src, reply, hack⟩ := h hawait hne
    exact ⟨src, reply, hack.step hstep⟩
  cases hstep.changeAt p with
  | same hserver => exact hquiet hserver
  | handled fs input r hacts hr hserver hsent hans hsends hanswers =>
    intro hawait hne
    rw [hserver] at hawait hne ⊢
    rw [← hrouted.serverId p] at hne
    rcases hr.foreign_cases hawait hne with ⟨hbefore, heq⟩ | ⟨⟨b, l⟩, reply, rfl, hres, hack, heq⟩
    · rw [heq] at hne ⊢
      rw [hrouted.serverId p] at hne
      obtain ⟨src, reply, hacked⟩ := h hbefore hne
      exact ⟨src, reply, hacked.step hstep⟩
    · obtain ⟨src, ha⟩ := hanswers _ _ rfl hres
      rw [heq]
      exact ⟨src, reply, hack, l, ha⟩

/-- A ballot that a server and one of its peers have promised. -/
def PromisedByPair (c : Constants) (n : Network) (p : ℤ) (b : Ballot) : Prop :=
  ∃ x ∈ c.peers p, n.Promised p b ∧ n.Promised x b

/-- What holds of the servers that await prepare replies, in every run. -/
structure Preparing (c : Constants) (n : Network) : Prop where
  routed : Routed c n
  majority : ∀ p, Majority (fun _ _ => True) n p
  foreign : ∀ p, PromisedForeign n p

theorem Preparing.step (h : Preparing c n) (hstep : Stepped c n e n') : Preparing c n' where
  routed := h.routed.step hstep
  majority := fun p => (h.majority p).step (fun _ _ _ _ _ => trivial) h.routed hstep
    (each_of_acts fun _ _ input _ => by
      unfold CountsOnly
      split
      · exact fun _ _ _ _ _ => trivial
      · trivial)
  foreign := fun p => (h.foreign p).step h.routed hstep

/-- Whose ever ballot a server has promised, a majority means that a peer has promised it too. -/
theorem Preparing.pair (h : Preparing c n) (hawait : (n.servers p).awaitPrepareDecision = true)
    (hmaj : Server.majority ≤ (n.servers p).prepareSuccesses) :
    PromisedByPair c n p (n.servers p).promisedNum := by
  by_cases hself : (n.servers p).promisedNum.serverId = p
  · obtain ⟨x, reply, ⟨hack, l, ha⟩, -⟩ := h.majority p hawait hself hmaj
    have hpeer := (h.routed.prepare ha.sent).2
    rw [hself] at hpeer
    exact ⟨x, hpeer, .inl ⟨hself, x, l, ha.sent⟩, .inr ⟨_, reply, hack, l, ha⟩⟩
  · obtain ⟨src, reply, hack, l, ha⟩ := h.foreign p hawait hself
    obtain ⟨hsrc, hpeer⟩ := h.routed.prepare ha.sent
    obtain rfl := hsrc
    exact ⟨_, Constants.mem_peers_symm hpeer, .inr ⟨_, reply, hack, l, ha⟩,
      .inl ⟨rfl, p, l, ha.sent⟩⟩

/-! ### Accepts -/

/-- A server has accepted a request: it has proposed it, or acknowledged an Accept of it. -/
def AcceptedBy (n : Network) (q : ℤ) (request : TransferReq) : Prop :=
  (∃ dst b, n.Sent (some q) dst (.accept ⟨b, request⟩)) ∨
    ∃ src b reply, reply.ack = true ∧ n.Answered src q (.accept ⟨b, request⟩) (.accept reply)

theorem AcceptedBy.step {q : ℤ} {request : TransferReq} (h : n.AcceptedBy q request)
    (hstep : Stepped c n e n') : n'.AcceptedBy q request := by
  rcases h with ⟨dst, b, hs⟩ | ⟨src, b, reply, hack, ha⟩
  · exact .inl ⟨dst, b, hs.step hstep⟩
  · exact .inr ⟨src, b, reply, hack, ha.step hstep⟩

/-- What the Accepts that a server sent under ballots of its own have to do with its accept
phase, whose request is `own`. -/
structure AcceptPhase (c : Constants) (n : Network) (own : TransferReq) (p : ℤ) : Prop where
  promised_le : (n.servers p).promisedNum.num ≤ (n.servers p).ballotNum
  bound : ∀ dst q, n.Sent (some p) dst (.accept q) → q.ballot.serverId = p →
    q.ballot.num ≤ (n.servers p).ballotNum
  fresh : (n.servers p).awaitPrepareDecision = true → ∀ dst q, n.Sent (some p) dst (.accept q) →
    q.ballot.serverId = p → q.ballot.num < (n.servers p).promisedNum.num
  value : (n.servers p).awaitAcceptDecision = true → ∀ dst q, n.Sent (some p) dst (.accept q) →
    q.ballot.serverId = p → q.ballot.num = (n.servers p).acceptNum.num ∨
      q.ballot.num = (n.servers p).promisedNum.num → q.r = own
  counted : (n.servers p).awaitAcceptDecision = true → 2 ≤ (n.servers p).acceptSuccesses →
    ∃ x ∈ c.peers p, n.AcceptedBy p own ∧ n.AcceptedBy x own

theorem AcceptPhase.quiet {own : TransferReq} (h : AcceptPhase c n own p)
    (hstep : Stepped c n e n') (hserver : n'.servers p = n.servers p)
    (hsent : ∀ dst q, n'.Sent (some p) dst (.accept q) → n.Sent (some p) dst (.accept q)) :
    AcceptPhase c n' own p where
  promised_le := by
    rw [hserver]
    exact h.promised_le
  bound := by
    intro dst q hs hid
    rw [hserver]
    exact h.bound dst q (hsent dst q hs) hid
  fresh := by
    intro hawait dst q hs hid
    rw [hserver] at hawait ⊢
    exact h.fresh hawait dst q (hsent dst q hs) hid
  value := by
    intro hawait dst q hs hid hnum
    rw [hserver] at hawait hnum
    exact h.value hawait dst q (hsent dst q hs) hid hnum
  counted := by
    intro hawait hmaj
    rw [hserver] at hawait hmaj
    obtain ⟨x, hx, hp, hpx⟩ := h.counted hawait hmaj
    exact ⟨x, hx, hp.step hstep, hpx.step hstep⟩

/-- A new accept phase: its Accepts carry a number above those of all earlier ones. -/
theorem AcceptPhase.started {own request : TransferReq} {r : Handled} (h : AcceptPhase c n own p)
    (hstarts : (n.servers p).Starts c request r) (hserver : n'.servers p = r.server)
    (hpromised : r.server.promisedNum.num ≤ r.server.ballotNum)
    (hsent : ∀ dst q, n'.Sent (some p) dst (.accept q) → n.Sent (some p) dst (.accept q) ∨
      ⟨dst, .accept q⟩ ∈ r.sent) : AcceptPhase c n' request p where
  promised_le := by rwa [hserver]
  bound := by
    intro dst q hs hid
    rw [hserver, hstarts.promised.2]
    rcases hsent dst q hs with hold | ho
    · exact h.bound dst q hold hid
    · rw [hstarts.sent dst q ho]
      exact h.promised_le
  fresh := by
    intro hawait
    rw [hserver, hstarts.await] at hawait
    cases hawait
  value := by
    intro _ dst q hs hid hnum
    rw [hserver, hstarts.promised.1, hstarts.accepted.1, or_self] at hnum
    rcases hsent dst q hs with hold | ho
    · have := h.fresh hstarts.proposes.2.1 dst q hold hid
      omega
    · rw [hstarts.sent dst q ho]
  counted := by
    intro _ hmaj
    rw [hserver, hstarts.accepted.2] at hmaj
    omega

/-- A peer whose acknowledgement is counted has accepted the request of the phase. -/
theorem AcceptPhase.acknowledged {own : TransferReq} (h : AcceptPhase c n own p)
    (hrouted : Routed c n) (hawait : (n.servers p).awaitAcceptDecision = true)
    {request : AcceptReq} {response : Response} {dst : ℤ}
    (ha : n.Answered (some p) dst (.accept request) response)
    (hnum : response.toAccept.ballot.num = (n.servers p).acceptNum.num)
    (hid : response.toAccept.ballot.serverId = (n.servers p).serverId)
    (hack : response.toAccept.ack = true) :
    dst ∈ c.peers p ∧ n.AcceptedBy p own ∧ n.AcceptedBy dst own := by
  obtain ⟨reply, rfl, hballot⟩ := hrouted.acceptAnswer _ _ _ _ ha
  have hballot : (Response.accept reply).toAccept.ballot = request.ballot := hballot
  obtain ⟨b, v⟩ := request
  rw [hballot] at hnum hid
  rw [hrouted.serverId p] at hid
  have hv : v = own := h.value hawait dst ⟨b, v⟩ ha.sent hid (.inl hnum)
  subst hv
  have hpeer : dst ∈ c.peers p := by
    obtain ⟨p', hp', hpeer⟩ := hrouted.accept ha.sent
    cases hp'
    exact hpeer
  exact ⟨hpeer, .inl ⟨dst, b, ha.sent⟩, .inr ⟨some p, b, reply, hack, ha⟩⟩

/-- A handler that starts no accept phase. -/
theorem AcceptPhase.steady {own own' : TransferReq} {fs : FileSystem} {input : Input} {r : Handled}
    (h : AcceptPhase c n own p) (hrouted : Routed c n) (hstep : Stepped c n e n')
    (hacts : Acts n e p fs input) (hsteady : (n.servers p).Steady input r)
    (hserver : n'.servers p = r.server) (hle : (n.servers p).ballotNum ≤ r.server.ballotNum)
    (hpromised : r.server.promisedNum.num ≤ r.server.ballotNum)
    (hown : (n.servers p).awaitAcceptDecision = true → own' = own)
    (hsent : ∀ dst q, n'.Sent (some p) dst (.accept q) → n.Sent (some p) dst (.accept q)) :
    AcceptPhase c n' own' p where
  promised_le := by rwa [hserver]
  bound := by
    intro dst q hs hid
    rw [hserver]
    exact (h.bound dst q (hsent dst q hs) hid).trans hle
  fresh := by
    intro hawait dst q hs hid
    rw [hserver] at hawait ⊢
    rcases hsteady.promised with hlt | ⟨heq, hbefore⟩
    · exact (h.bound dst q (hsent dst q hs) hid).trans_lt hlt
    · rw [heq]
      exact h.fresh (hbefore hawait) dst q (hsent dst q hs) hid
  value := by
    intro hawait dst q hs hid hnum
    rw [hserver] at hawait hnum
    have hbefore := hsteady.await hawait
    rw [hown hbefore]
    refine h.value hbefore dst q (hsent dst q hs) hid ?_
    rcases hnum with hnum | hnum
    · rcases hsteady.accepted with hsame | hsame
      · exact .inl (hnum.trans hsame)
      · exact .inr (hnum.trans hsame)
    · rcases hsteady.promised with hlt | ⟨hsame, -⟩
      · have := h.bound dst q (hsent dst q hs) hid
        omega
      · exact .inr (hnum.trans (congrArg Ballot.num hsame))
  counted := by
    intro hawait hmaj
    rw [hserver] at hawait hmaj
    have hbefore := hsteady.await hawait
    rw [hown hbefore]
    rcases hsteady.counted hmaj with hmaj | ⟨request, response, rfl, hnum, hid, hack⟩
    · obtain ⟨x, hx, hp, hpx⟩ := h.counted hbefore hmaj
      exact ⟨x, hx, hp.step hstep, hpx.step hstep⟩
    · obtain ⟨dst, ha⟩ := hacts.reply_answered
      obtain ⟨hpeer, hp, hpx⟩ := h.acknowledged hrouted hbefore ha hnum hid hack
      exact ⟨dst, hpeer, hp.step hstep, hpx.step hstep⟩

theorem AcceptPhase.handled {own : TransferReq} {fs : FileSystem} {input : Input} {r : Handled}
    (h : AcceptPhase c n own p) (hrouted : Routed c n) (hphases : (n.servers p).Phases)
    (hstep : Stepped c n e n') (hacts : Acts n e p fs input)
    (hr : (n.servers p).Acted c fs input r) (hkeeps : (n.servers p).KeepsBallot fs input)
    (hserver : n'.servers p = r.server)
    (hsent : ∀ dst q, n'.Sent (some p) dst (.accept q) → n.Sent (some p) dst (.accept q) ∨
      ⟨dst, .accept q⟩ ∈ r.sent) :
    AcceptPhase c n' (((n.servers p).starting c input).getD own) p := by
  have hle : (n.servers p).ballotNum ≤ r.server.ballotNum := hr.ballotNum_le hkeeps
  have hpromised := hr.promisedNum_le hkeeps h.promised_le
  rcases hr.starts_or_steady with ⟨request, hstarting, hstarts⟩ | hsteady
  · rw [hstarting, Option.getD_some]
    exact h.started hstarts hserver hpromised hsent
  · refine h.steady hrouted hstep hacts hsteady hserver hle hpromised (fun hawait => ?_)
      fun dst q hs => (hsent dst q hs).resolve_right (hsteady.silent dst q)
    rw [Server.starting_eq_none hphases hawait]
    rfl

/-- What holds of the accept phases of all servers in a run that lowers no ballot number. -/
structure Accepting (c : Constants) (p : Network × (ℤ → TransferReq)) : Prop where
  routed : Routed c p.1
  phases : ∀ x, (p.1.servers x).Phases
  phase : ∀ x, AcceptPhase c p.1 (p.2 x) x

theorem accepting_init (c : Constants) (disk : ℤ → Disk) :
    Accepting c (init c disk, fun _ => {}) where
  routed := routed_init c disk
  phases := fun _ => ⟨nofun, nofun, nofun⟩
  phase := by
    intro x
    refine ⟨le_rfl, ?_, nofun, nofun, nofun⟩
    rintro dst q ⟨call, hmem, -⟩
    cases hmem

theorem Accepting.step {p q : Network × (ℤ → TransferReq)} (h : Accepting c p)
    (hstep : withGhost (step c) (startedBy c) p e = some q)
    (hkeeps : Each Server.KeepsBallot p.1 e) : Accepting c q := by
  obtain ⟨hnext, hghost⟩ := withGhost_eq_some.mp hstep
  have hstepped := step_stepped hnext
  refine ⟨h.routed.step hstepped, ?_, ?_⟩
  · exact hstepped.server_invariant (I := fun _ s => s.Phases) h.phases
      fun id _ _ _ _ hr => hr.phases (h.phases id)
  · intro x
    unfold startedBy at hghost
    cases hstepped.change with
    | quiet hservers hsent hans =>
      have hold : ∀ dst a, q.1.Sent (some x) dst (.accept a) → p.1.Sent (some x) dst (.accept a) := by
        intro dst a hs
        rcases hsent _ _ _ hs with hs | ⟨hnone, -⟩
        · exact hs
        · cases hnone
      have hquiet := (h.phase x).quiet hstepped (by rw [hservers]) hold
      cases hact : acting p.1 e with
      | none =>
        rw [hact] at hghost
        rwa [hghost]
      | some a =>
        obtain ⟨id, fs, input⟩ := a
        rw [hact] at hghost
        dsimp only at hghost
        rw [hghost]
        by_cases hx : x = id
        · subst hx
          have hacts := acting_eq_some.mp hact
          rw [Function.update_self]
          exact (h.phase x).handled h.routed (h.phases x) hstepped hacts (Server.react_acted input)
            (hkeeps.acts hacts) (by rw [step_acts hnext hacts, Function.update_self])
            fun dst a hs => .inl (hold dst a hs)
        · rwa [Function.update_of_ne hx]
    | handled id fs input r hacts hr hservers hsent hans =>
      rw [acting_eq_some.mpr hacts] at hghost
      dsimp only at hghost
      rw [hghost]
      by_cases hx : x = id
      · subst hx
        rw [Function.update_self]
        refine (h.phase x).handled h.routed (h.phases x) hstepped hacts hr (hkeeps.acts hacts)
          (by rw [hservers, Function.update_self]) fun dst a hs => ?_
        rcases hsent _ _ _ hs with hold | ⟨-, ho⟩
        · exact .inl hold
        · exact .inr ho
      · rw [Function.update_of_ne hx]
        refine (h.phase x).quiet hstepped (by rw [hservers, Function.update_of_ne hx])
          fun dst a hs => ?_
        rcases hsent _ _ _ hs with hold | ⟨hsome, -⟩
        · exact hold
        · exact absurd (Option.some.inj hsome) hx

/-! ### The two checks -/

/-- The poll of a server that finds a majority of promises in an event, with its ballot. -/
def preparePassed (n : Network) (e : Event) : Option (ℤ × Ballot) :=
  match acting n e with
  | some (id, _, .request (.transfer request)) | some (id, _, .request (.tpcPrepare request)) =>
      if (n.servers id).PassesPrepare request then some (id, (n.servers id).promisedNum) else none
  | _ => none

/-- The poll of a server that finds a majority of accepts in an event, with the request of its
accept phase. -/
def acceptPassed (p : Network × (ℤ → TransferReq)) (e : Event) : Option (ℤ × TransferReq) :=
  match acting p.1 e with
  | some (id, _, .request (.transfer request)) | some (id, _, .request (.tpcPrepare request)) =>
      if (p.1.servers id).Commits request then some (id, p.2 id) else none
  | _ => none

/-- The servers that have passed the check of the promises, with the ballots. -/
def preparePasses (c : Constants) (disk : ℤ → Disk) (es : List Event) : List (ℤ × Ballot) :=
  observe (step c) preparePassed (init c disk) es

/-- The servers that have passed the check of the accepts, with the requests. -/
def acceptPasses (c : Constants) (disk : ℤ → Disk) (es : List Event) : List (ℤ × TransferReq) :=
  observe (withGhost (step c) (startedBy c)) acceptPassed (init c disk, fun _ => {}) es

/-- Any two proposers of a cluster that have each passed the check of the promises share a
server that has promised both ballots. -/
def PrepareQuorumsMeet (c : Constants) (disk : ℤ → Disk) (es : List Event) (n : Network) : Prop :=
  ∀ p p' b b', (p, b) ∈ preparePasses c disk es → (p', b') ∈ preparePasses c disk es →
    c.getClusterIdFromServerId p = c.getClusterIdFromServerId p' →
      ∃ q, n.Promised q b ∧ n.Promised q b'

/-- Any two proposers of a cluster that have each passed the check of the accepts share a
server that has accepted both requests. -/
def AcceptQuorumsMeet (c : Constants) (disk : ℤ → Disk) (es : List Event) (n : Network) : Prop :=
  ∀ p p' r r', (p, r) ∈ acceptPasses c disk es → (p', r') ∈ acceptPasses c disk es →
    c.getClusterIdFromServerId p = c.getClusterIdFromServerId p' →
      ∃ q, n.AcceptedBy q r ∧ n.AcceptedBy q r'

theorem preparePassed_eq_some {b : Ballot} (h : preparePassed n e = some (p, b)) :
    (n.servers p).awaitPrepareDecision = true ∧
      Server.majority ≤ (n.servers p).prepareSuccesses ∧ b = (n.servers p).promisedNum := by
  unfold preparePassed at h
  split at h
  · split_ifs at h with hpass
    cases h
    exact ⟨hpass.2.1, hpass.2.2, rfl⟩
  · split_ifs at h with hpass
    cases h
    exact ⟨hpass.2.1, hpass.2.2, rfl⟩
  · cases h

theorem acceptPassed_eq_some {p : Network × (ℤ → TransferReq)} {x : ℤ} {request : TransferReq}
    (h : acceptPassed p e = some (x, request)) :
    (p.1.servers x).awaitAcceptDecision = true ∧
      Server.majority ≤ (p.1.servers x).acceptSuccesses ∧ request = p.2 x := by
  unfold acceptPassed at h
  split at h
  · split_ifs at h with hcommits
    cases h
    exact ⟨hcommits.2.2.1, hcommits.2.2.2, rfl⟩
  · split_ifs at h with hcommits
    cases h
    exact ⟨hcommits.2.2.1, hcommits.2.2.2, rfl⟩
  · cases h

theorem PromisedByPair.step {b : Ballot} (h : PromisedByPair c n p b) (hstep : Stepped c n e n') :
    PromisedByPair c n' p b := by
  obtain ⟨x, hx, hp, hpx⟩ := h
  exact ⟨x, hx, hp.step hstep, hpx.step hstep⟩

/-- Every proposer that has passed the check of the promises had a peer's promise. -/
theorem preparePasses_backed {disk : ℤ → Disk} {es : List Event}
    (h : Reaches c (fun _ _ => True) disk es n) {b : Ballot}
    (hpass : (p, b) ∈ preparePasses c disk es) : PromisedByPair c n p b := by
  have hinit : Preparing c (init c disk) := ⟨routed_init c disk, nofun, nofun⟩
  have hnew : ∀ n e o, Preparing c n → preparePassed n e = some o → PromisedByPair c n o.1 o.2 := by
    rintro n e ⟨p, b⟩ hn ho
    obtain ⟨hawait, hmaj, rfl⟩ := preparePassed_eq_some ho
    exact hn.pair hawait hmaj
  exact (h.observed hinit (fun _ _ _ hn _ hs => hn.step (step_stepped hs)) hnew
    fun _ _ _ _ hs ho => ho.step (step_stepped hs)).2 (p, b) hpass

/-- A server and one of its peers have accepted a request. -/
def AcceptedByPair (c : Constants) (n : Network) (p : ℤ) (request : TransferReq) : Prop :=
  ∃ x ∈ c.peers p, n.AcceptedBy p request ∧ n.AcceptedBy x request

theorem AcceptedByPair.step {request : TransferReq} (h : AcceptedByPair c n p request)
    (hstep : Stepped c n e n') : AcceptedByPair c n' p request := by
  obtain ⟨x, hx, hp, hpx⟩ := h
  exact ⟨x, hx, hp.step hstep, hpx.step hstep⟩

/-- Where no ballot number is lowered, every proposer that has passed the check of the accepts
had the accept of a peer for the request of its accept phase. -/
theorem acceptPasses_backed {disk : ℤ → Disk} {es : List Event} {q : Network × (ℤ → TransferReq)}
    (h : ReachesStarted c (fun p e => Each Server.KeepsBallot p.1 e) disk es q)
    {request : TransferReq} (hpass : (p, request) ∈ acceptPasses c disk es) :
    AcceptedByPair c q.1 p request := by
  have hnew : ∀ q e o, Accepting c q → acceptPassed q e = some o →
      AcceptedByPair c q.1 o.1 o.2 := by
    rintro q e ⟨x, request⟩ hq ho
    obtain ⟨hawait, hmaj, rfl⟩ := acceptPassed_eq_some ho
    exact (hq.phase x).counted hawait hmaj
  exact (h.observed (accepting_init c disk) (fun _ _ _ hq hkeeps hs => hq.step hs hkeeps) hnew
    fun _ _ _ _ hs ho => ho.step (step_stepped (withGhost_eq_some.mp hs).1)).2 (p, request) hpass

/-- In clusters of at most three servers the quorums of the two checks intersect: those of the
promises in every run, those of the accepts in every run that lowers no ballot number. -/
theorem quorums_meet (hsize : c.clusterSize ≤ 3) {disk : ℤ → Disk} {es : List Event}
    {p : Network × (ℤ → TransferReq)} (h : ReachesStarted c (fun _ _ => True) disk es p) :
    PrepareQuorumsMeet c disk es p.1 ∧
      (ReachesStarted c (fun p e => Each Server.KeepsBallot p.1 e) disk es p →
        AcceptQuorumsMeet c disk es p.1) := by
  constructor
  · intro x x' b b' hpass hpass' hcluster
    obtain ⟨y, hy, hx, hxy⟩ := preparePasses_backed h.forget hpass
    obtain ⟨y', hy', hx', hxy'⟩ := preparePasses_backed h.forget hpass'
    exact Constants.pairs_share hsize hy hy' hcluster hx hxy hx' hxy'
  · intro hkeeps x x' r r' hpass hpass' hcluster
    obtain ⟨y, hy, hx, hxy⟩ := acceptPasses_backed hkeeps hpass
    obtain ⟨y', hy', hx', hxy'⟩ := acceptPasses_backed hkeeps hpass'
    exact Constants.pairs_share hsize hy hy' hcluster hx hxy hx' hxy'

/-- Servers 1 and 3 of a cluster of three propose one after the other, and both commit. -/
def successiveRun : List Event :=
  [.call 1 (.transfer ⟨⟨1, 2, 3⟩, 1⟩), .arrives 0, .arrives 1, .arrives 2, .returns 1, .arrives 0,
    .arrives 3, .arrives 4, .returns 3, .arrives 0, .arrives 5, .arrives 6,
    .call 3 (.transfer ⟨⟨3, 4, 1⟩, 2⟩), .arrives 7, .arrives 8, .returns 8, .arrives 7, .arrives 10,
    .returns 10, .arrives 7]

theorem quorums_meet_successiveRun :
    ∃ n, Reaches .single (Each Server.KeepsBallot) (fun _ => .empty) successiveRun n ∧
      (∃ q, n.Promised q ⟨1, 1⟩ ∧ n.Promised q ⟨2, 3⟩) ∧
      ∃ q, n.AcceptedBy q ⟨⟨1, 2, 3⟩, 1⟩ ∧ n.AcceptedBy q ⟨⟨3, 4, 1⟩, 2⟩ := by
  obtain ⟨n, hn, -⟩ := (Option.any_eq_true _ _).mp
    (show (runIf (step .single) (Each Server.KeepsBallot) (init .single fun _ => .empty)
      successiveRun).any (fun n => decide ((n.servers 3).balances 3 = 9)) = true by decide +kernel)
  have hkeeps := runs_of_runIf hn
  obtain ⟨own, hrun⟩ := hkeeps.ghost (startedBy .single) fun _ => {}
  have hpasses : (1, ⟨1, 1⟩) ∈ preparePasses .single (fun _ => .empty) successiveRun ∧
      (3, ⟨2, 3⟩) ∈ preparePasses .single (fun _ => .empty) successiveRun ∧
      (1, ⟨⟨1, 2, 3⟩, 1⟩) ∈ acceptPasses .single (fun _ => .empty) successiveRun ∧
      (3, ⟨⟨3, 4, 1⟩, 2⟩) ∈ acceptPasses .single (fun _ => .empty) successiveRun := by
    decide +kernel
  obtain ⟨hprepare, hprepare', haccept, haccept'⟩ := hpasses
  obtain ⟨hmeet, hmeet'⟩ := quorums_meet (c := .single) (by decide)
    (hrun.mono fun _ _ _ => trivial)
  exact ⟨n, hkeeps, hmeet 1 3 _ _ hprepare hprepare' rfl, hmeet' hrun 1 3 _ _ haccept haccept' rfl⟩

/-! ### A cluster of four -/

/-- The servers that can have promised a ballot. -/
def promisers (n : Network) (b : Ballot) : List ℤ :=
  b.serverId :: n.calls.filterMap fun call =>
    match call.request, call.response with
    | .prepare q, some (.prepare reply) => if q.ballot = b ∧ reply.ack then some call.dst else none
    | _, _ => none

theorem Promised.mem_promisers {q : ℤ} {b : Ballot} (h : n.Promised q b) : q ∈ n.promisers b := by
  rcases h with ⟨rfl, -⟩ | ⟨src, reply, hack, l, call, hmem, -, hdst, hrequest, hresponse⟩
  · exact List.mem_cons_self
  · refine List.mem_cons_of_mem _ (List.mem_filterMap.mpr ⟨call, hmem, ?_⟩)
    simp [hrequest, hresponse, hack, hdst]

/-- The servers that can have accepted a request. -/
def accepters (n : Network) (request : TransferReq) : List ℤ :=
  n.calls.flatMap fun call =>
    match call.request, call.response with
    | .accept q, some (.accept reply) =>
        if q.r = request then call.src.toList ++ (if reply.ack then [call.dst] else []) else []
    | .accept q, _ => if q.r = request then call.src.toList else []
    | _, _ => []

theorem AcceptedBy.mem_accepters {q : ℤ} {request : TransferReq} (h : n.AcceptedBy q request) :
    q ∈ n.accepters request := by
  unfold accepters
  rcases h with ⟨dst, b, call, hmem, hsrc, -, hrequest⟩ |
    ⟨src, b, reply, hack, call, hmem, -, hdst, hrequest, hresponse⟩
  · refine List.mem_flatMap.mpr ⟨call, hmem, ?_⟩
    cases hresponse : call.response with
    | none => simp [hrequest, hsrc]
    | some response => cases response <;> simp [hrequest, hsrc]
  · refine List.mem_flatMap.mpr ⟨call, hmem, ?_⟩
    simp [hrequest, hresponse, hack, hdst]

/-- Servers 1 and 2, and servers 3 and 4, of a cluster of four commit two transfers at once. -/
def splitRun : List Event :=
  [.call 1 (.transfer ⟨⟨1, 2, 3⟩, 1⟩), .arrives 0, .arrives 1, .returns 1,
    .call 3 (.transfer ⟨⟨3, 4, 1⟩, 2⟩), .arrives 4, .arrives 7, .returns 7, .arrives 0, .arrives 4,
    .arrives 8, .returns 8, .arrives 13, .returns 13, .arrives 0, .arrives 4]

def four : Constants := ⟨1, 4, Int.one_pos, by decide⟩

theorem not_quorums_meet_splitRun :
    ∃ p, ReachesStarted four (fun p e => Each Server.KeepsBallot p.1 e) (fun _ => .empty)
        splitRun p ∧
      ¬ PrepareQuorumsMeet four (fun _ => .empty) splitRun p.1 ∧
      ¬ AcceptQuorumsMeet four (fun _ => .empty) splitRun p.1 := by
  obtain ⟨n, hn, hcheck⟩ := (Option.any_eq_true _ _).mp
    (show (runIf (step four) (Each Server.KeepsBallot) (init four fun _ => .empty)
      splitRun).any (fun n => decide (
        (∀ q ∈ n.promisers ⟨1, 1⟩, q ∉ n.promisers ⟨1, 3⟩) ∧
        ∀ q ∈ n.accepters ⟨⟨1, 2, 3⟩, 1⟩, q ∉ n.accepters ⟨⟨3, 4, 1⟩, 2⟩)) = true by
      decide +kernel)
  obtain ⟨hpromisers, haccepters⟩ := of_decide_eq_true hcheck
  obtain ⟨own, hrun⟩ := (runs_of_runIf hn).ghost (startedBy four) fun _ => {}
  have hpasses : (1, ⟨1, 1⟩) ∈ preparePasses four (fun _ => .empty) splitRun ∧
      (3, ⟨1, 3⟩) ∈ preparePasses four (fun _ => .empty) splitRun ∧
      (1, ⟨⟨1, 2, 3⟩, 1⟩) ∈ acceptPasses four (fun _ => .empty) splitRun ∧
      (3, ⟨⟨3, 4, 1⟩, 2⟩) ∈ acceptPasses four (fun _ => .empty) splitRun := by
    decide +kernel
  obtain ⟨hprepare, hprepare', haccept, haccept'⟩ := hpasses
  refine ⟨(n, own), hrun, fun hmeet => ?_, fun hmeet => ?_⟩
  · obtain ⟨q, hq, hq'⟩ := hmeet 1 3 _ _ hprepare hprepare' rfl
    exact hpromisers q hq.mem_promisers hq'.mem_promisers
  · obtain ⟨q, hq, hq'⟩ := hmeet 1 3 _ _ haccept haccept' rfl
    exact haccepters q hq.mem_accepters hq'.mem_accepters

end Network
end TpcBank
