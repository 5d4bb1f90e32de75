import TpcBank.Coordinator

/-! The outcome of two-phase commit: the client decides a cross-shard transaction at most
once, and commits it only after both leaders have prepared it. -/
namespace TpcBank
open Decimal Transition

namespace System

/-! ### The two prepare calls of a transaction -/

/-- How often a call has ended. -/
def ended (a : Call) : ℕ := if a.completed then 1 else 0

/-- How often a prepare call has ended after the answer `ack = true`. -/
def agreed (tid : ℤ) (a : Call) : ℕ :=
  if a.completed ∧ a.response = some (.transfer ⟨true, tid⟩) then 1 else 0

theorem ended_le {a b : Call} (h : Network.Later a b) : ended a ≤ ended b := by
  unfold ended
  split_ifs with ha hb
  · exact le_rfl
  · exact absurd (h.completed ha) hb
  · exact Nat.zero_le _
  · exact le_rfl

theorem agreed_le {tid : ℤ} {a b : Call} (h : Network.Later a b) : agreed tid a ≤ agreed tid b := by
  unfold agreed
  split_ifs with ha hb
  · exact le_rfl
  · exact absurd ⟨h.completed ha.1, h.response _ ha.2⟩ hb
  · exact Nat.zero_le _
  · exact le_rfl

theorem ended_le_one (a : Call) : ended a ≤ 1 := by
  unfold ended
  split_ifs <;> omega

theorem agreed_le_one (tid : ℤ) (a : Call) : agreed tid a ≤ 1 := by
  unfold agreed
  split_ifs <;> omega

theorem completed_of_ended {a : Call} (h : 1 ≤ ended a) : a.completed = true := by
  unfold ended at h
  split_ifs at h with ha
  · exact ha
  · omega

theorem answered_of_agreed {tid : ℤ} {a : Call} (h : 1 ≤ agreed tid a) :
    a.response = some (.transfer ⟨true, tid⟩) := by
  unfold agreed at h
  split_ifs at h with ha
  · exact ha.2
  · omega

/-- What the client has counted for a transaction with the prepare calls `a` and `b`. -/
structure Tally (processing : ℤ → Option TpcPrepareRes) (request : TransferReq) (a b : Call) :
    Prop where
  counted : ∀ p, processing request.tid = some p → p.txn = request.txn ∧
    p.successes + p.failures ≤ ended a + ended b ∧
    p.successes ≤ agreed request.tid a + agreed request.tid b
  closed : processing request.tid = none → a.completed = true ∧ b.completed = true

/-- The two prepare calls of a transaction the client has issued, at the positions `i` and
`i + 1` of the table. -/
structure PairAt (c : Constants) (as : List Action) (σ : System) (i : ℕ) (request : TransferReq)
    (a b : Call) : Prop where
  first : σ.network.calls[i]? = some a
  second : σ.network.calls[i + 1]? = some b
  source : a.src = none ∧ b.src = none
  prepares : a.request = .tpcPrepare request ∧ b.request = .tpcPrepare request
  contacted : ∃ leaders, .processTransaction request.txn leaders request.tid ∈ as ∧
    leaderId c leaders (c.getClusterIdFromClientId request.txn.sender) = some a.dst ∧
    leaderId c leaders (c.getClusterIdFromClientId request.txn.receiver) = some b.dst
  positive : 0 < request.tid
  tally : Tally σ.processing request a b

/-- What holds of all decisions of the client. -/
structure Coordinated (c : Constants) (as : List Action) (σ : System) : Prop where
  routed : Network.Routed c σ.network
  pairs : ∀ (j : ℕ) (d : Call) request, σ.network.calls[j]? = some d →
    d.request = .tpcPrepare request → ∃ i a b, PairAt c as σ i request a b ∧ (j = i ∨ j = i + 1)
  near : ∀ (j j' : ℕ) (d d' : Call) request request', σ.network.calls[j]? = some d →
    σ.network.calls[j']? = some d' → d.request = .tpcPrepare request →
      d'.request = .tpcPrepare request' → request.tid = request'.tid → j ≤ j' + 1
  decisions : ∀ (j : ℕ) (d : Call) isCommit tid, σ.network.calls[j]? = some d →
    d.request = .decision isCommit ⟨tid⟩ → 0 < tid →
      ∃ i request a b, PairAt c as σ i request a b ∧ request.tid = tid ∧
        σ.processing tid = none ∧ (isCommit = true →
          a.response = some (.transfer ⟨true, tid⟩) ∧ b.response = some (.transfer ⟨true, tid⟩))
  once : ∀ (j j' : ℕ) (d d' : Call) isCommit isCommit' tid, 0 < tid →
    σ.network.calls[j]? = some d → σ.network.calls[j']? = some d' →
      d.request = .decision isCommit ⟨tid⟩ → d'.request = .decision isCommit' ⟨tid⟩ →
        isCommit = isCommit' ∧ (d.dst = d'.dst → j = j')

variable {c : Constants} {as : List Action} {σ σ' : System} {act : Action}

theorem coordinated_init (c : Constants) (disk : ℤ → Disk) : Coordinated c [] (init c disk) := by
  have hnone : ∀ (j : ℕ) (d : Call), (init c disk).network.calls[j]? ≠ some d := by
    intro j d hj
    cases List.mem_of_getElem? hj
  constructor
  · exact Network.routed_init c disk
  · exact fun j d _ hj => absurd hj (hnone j d)
  · exact fun j _ d _ _ _ hj => absurd hj (hnone j d)
  · exact fun j d _ _ hj => absurd hj (hnone j d)
  · exact fun j _ d _ _ _ _ _ hj => absurd hj (hnone j d)

theorem Tally.later {processing processing' : ℤ → Option TpcPrepareRes} {request : TransferReq}
    {a b a' b' : Call} (h : Tally processing request a b)
    (hsame : processing' request.tid = processing request.tid) (ha : Network.Later a a')
    (hb : Network.Later b b') : Tally processing' request a' b' := by
  constructor
  · intro p hp
    obtain ⟨htxn, hsum, hyes⟩ := h.counted p (hsame.symm.trans hp)
    exact ⟨htxn, hsum.trans (Nat.add_le_add (ended_le ha) (ended_le hb)),
      hyes.trans (Nat.add_le_add (agreed_le ha) (agreed_le hb))⟩
  · intro hnone
    obtain ⟨hca, hcb⟩ := h.closed (hsame.symm.trans hnone)
    exact ⟨ha.completed hca, hb.completed hcb⟩

/-- The calls of a pair, with another tally. -/
theorem PairAt.move {i : ℕ} {request : TransferReq} {a b a' b' : Call}
    (h : PairAt c as σ i request a b) (act : Action) (hfirst : σ'.network.calls[i]? = some a')
    (hsecond : σ'.network.calls[i + 1]? = some b') (ha : Network.Later a a')
    (hb : Network.Later b b') (htally : Tally σ'.processing request a' b') :
    PairAt c (as ++ [act]) σ' i request a' b' where
  first := hfirst
  second := hsecond
  source := ⟨ha.src.trans h.source.1, hb.src.trans h.source.2⟩
  prepares := ⟨ha.request.trans h.prepares.1, hb.request.trans h.prepares.2⟩
  contacted := by
    obtain ⟨leaders, hmem, hsender, hreceiver⟩ := h.contacted
    exact ⟨leaders, List.mem_append_left _ hmem, by rw [ha.dst, hsender], by rw [hb.dst, hreceiver]⟩
  positive := h.positive
  tally := htally

theorem PairAt.later {i : ℕ} {request : TransferReq} {a b : Call} (h : PairAt c as σ i request a b)
    (act : Action) (hlater : ∀ (j : ℕ) (d : Call), σ.network.calls[j]? = some d →
      ∃ d', σ'.network.calls[j]? = some d' ∧ Network.Later d d')
    (hsame : σ'.processing request.tid = σ.processing request.tid) :
    ∃ a' b', PairAt c (as ++ [act]) σ' i request a' b' ∧ Network.Later a a' ∧ Network.Later b b' := by
  obtain ⟨a', hfirst, ha⟩ := hlater i a h.first
  obtain ⟨b', hsecond, hb⟩ := hlater (i + 1) b h.second
  exact ⟨a', b', h.move act hfirst hsecond ha hb (h.tally.later hsame ha hb), ha, hb⟩

theorem Coordinated.pair_unique (h : Coordinated c as σ) {i i' : ℕ} {request request' : TransferReq}
    {a b a' b' : Call} (hp : PairAt c as σ i request a b) (hp' : PairAt c as σ i' request' a' b')
    (htid : request.tid = request'.tid) : i = i' ∧ a = a' ∧ b = b' := by
  have hle := h.near (i + 1) i' b a' _ _ hp.second hp'.first hp.prepares.2 hp'.prepares.1 htid
  have hge := h.near (i' + 1) i b' a _ _ hp'.second hp.first hp'.prepares.2 hp.prepares.1 htid.symm
  obtain rfl : i = i' := by omega
  exact ⟨rfl, Option.some.inj (hp.first.symm.trans hp'.first),
    Option.some.inj (hp.second.symm.trans hp'.second)⟩

/-- A decision that is found in the table after a step was there before. -/
def OldDecisions (σ σ' : System) : Prop :=
  ∀ (j : ℕ) (d' : Call), σ'.network.calls[j]? = some d' →
    (∃ d, σ.network.calls[j]? = some d ∧ Network.Later d d') ∨
      (∀ request, d'.request ≠ .tpcPrepare request) ∧
        ∀ isCommit tid, d'.request = .decision isCommit ⟨tid⟩ → tid ≤ 0

/-- An action that touches no counter of an issued transaction. -/
theorem Coordinated.quiet (h : Coordinated c as σ) (act : Action)
    (hrouted : Network.Routed c σ'.network)
    (hsame : ∀ tid, 0 < tid → σ'.processing tid = σ.processing tid)
    (hlater : ∀ (j : ℕ) (d : Call), σ.network.calls[j]? = some d →
      ∃ d', σ'.network.calls[j]? = some d' ∧ Network.Later d d')
    (hold : OldDecisions σ σ') : Coordinated c (as ++ [act]) σ' where
  routed := hrouted
  pairs := by
    intro j d' request hj hreq
    rcases hold j d' hj with ⟨d, hd, hl⟩ | ⟨hnot, -⟩
    · obtain ⟨i, a, b, hp, hpos⟩ := h.pairs j d request hd (hl.request.symm.trans hreq)
      obtain ⟨a', b', hp', -⟩ := hp.later act hlater (hsame _ hp.positive)
      exact ⟨i, a', b', hp', hpos⟩
    · exact absurd hreq (hnot request)
  near := by
    intro j j' d d' request request' hj hj' hreq hreq' htid
    rcases hold j d hj with ⟨b, hb, hl⟩ | ⟨hnot, -⟩
    · rcases hold j' d' hj' with ⟨b', hb', hl'⟩ | ⟨hnot, -⟩
      · exact h.near j j' b b' request request' hb hb' (hl.request.symm.trans hreq)
          (hl'.request.symm.trans hreq') htid
      · exact absurd hreq' (hnot request')
    · exact absurd hreq (hnot request)
  decisions := by
    intro j d' isCommit tid hj hreq hpos
    rcases hold j d' hj with ⟨d, hd, hl⟩ | ⟨-, hnot⟩
    · obtain ⟨i, request, a, b, hp, rfl, hnone, hyes⟩ :=
        h.decisions j d isCommit tid hd (hl.request.symm.trans hreq) hpos
      obtain ⟨a', b', hp', ha, hb⟩ := hp.later act hlater (hsame _ hp.positive)
      refine ⟨i, request, a', b', hp', rfl, (hsame _ hp.positive).trans hnone, fun hc => ?_⟩
      exact ⟨ha.response _ (hyes hc).1, hb.response _ (hyes hc).2⟩
    · have := hnot isCommit tid hreq
      omega
  once := by
    intro j j' d d' isCommit isCommit' tid hpos hj hj' hreq hreq'
    rcases hold j d hj with ⟨b, hb, hl⟩ | ⟨-, hnot⟩
    · rcases hold j' d' hj' with ⟨b', hb', hl'⟩ | ⟨-, hnot⟩
      · rw [hl.dst, hl'.dst]
        exact h.once j j' b b' isCommit isCommit' tid hpos hb hb' (hl.request.symm.trans hreq)
          (hl'.request.symm.trans hreq')
      · have := hnot isCommit' tid hreq'
        omega
    · have := hnot isCommit tid hreq
      omega

/-! ### One action -/

theorem getElem?_send {n : Network} {calls : List OutCall} {j : ℕ} {d : Call}
    (h : (send n calls).calls[j]? = some d) : n.calls[j]? = some d ∨
      ∃ k o, j = n.calls.length + k ∧ calls[k]? = some o ∧
        d = ⟨none, o.dst, o.request, none, false⟩ := by
  unfold send at h
  by_cases hlen : j < n.calls.length
  · rw [List.getElem?_append_left hlen] at h
    exact .inl h
  · rw [List.getElem?_append_right (by omega), List.getElem?_map, Option.map_eq_some_iff] at h
    obtain ⟨o, ho, rfl⟩ := h
    exact .inr ⟨j - n.calls.length, o, by omega, ho, rfl⟩

/-- An action other than the start of a set: an event at a server or none, and then calls of the
client that are no Disconnect calls. -/
theorem step_calls (hs : step c σ act = some σ')
    (hother : ∀ servers, act ≠ .updateDisconnected servers) :
    ∃ n calls, σ'.network = send n calls ∧ (∀ o ∈ calls, ∀ q, o.request ≠ .disconnect q) ∧
      (n = σ.network ∨ (∃ i fs, act = .deliver i fs ∧ σ.network.step c (.deliver i fs) = some n) ∨
        ∃ i status fs, act = .complete i status fs ∧
          σ.network.step c (.complete i status fs) = some n) := by
  have hstep := step_stepped hs
  cases act with
  | updateDisconnected servers => exact absurd rfl (hother servers)
  | printBalance clientId =>
    cases hs
    refine ⟨_, _, rfl, fun o ho q => ?_, .inl rfl⟩
    obtain ⟨s, -, rfl⟩ := List.mem_map.mp ho
    simp
  | printDatastore =>
    cases hs
    refine ⟨_, _, rfl, fun o ho q => ?_, .inl rfl⟩
    obtain ⟨s, -, rfl⟩ := List.mem_map.mp ho
    simp
  | processTransaction t leaders tid =>
    cases hstep with
    | intra => exact ⟨_, _, rfl, by simp, .inl rfl⟩
    | cross => exact ⟨_, _, rfl, by simp, .inl rfl⟩
    | asked _ _ ha => exact absurd rfl (ha t leaders tid)
  | deliver i fs =>
    obtain ⟨n, hn, heq⟩ := Option.bind_eq_some_iff.mp hs
    cases heq
    exact ⟨n, [], by simp [send], by simp, .inr (.inl ⟨i, fs, rfl, hn⟩)⟩
  | complete i status fs =>
    cases hstep with
    | asked _ _ _ _ hends => exact absurd rfl (hends i status fs)
    | completed _ _ _ call n hcall hno hn =>
      exact ⟨n, [], by simp [send], by simp, .inr (.inr ⟨i, status, fs, rfl, hn⟩)⟩
    | consumed _ _ _ call request n hcall hsrc hrequest hn =>
      refine ⟨n, _, rfl, fun o ho q hq => ?_, .inr (.inr ⟨i, status, fs, rfl, hn⟩)⟩
      obtain ⟨isCommit, hdecision⟩ := consumeReply_request ho
      rw [hq] at hdecision
      cases isCommit <;> cases hdecision

/-- The client sends a request that neither prepares nor decides. -/
theorem oldDecisions_send {calls : List OutCall} (hnetwork : σ'.network = send σ.network calls)
    (hcalls : ∀ o ∈ calls, (∀ request, o.request ≠ .tpcPrepare request) ∧
      ∀ isCommit tid, o.request = .decision isCommit ⟨tid⟩ → tid ≤ 0) : OldDecisions σ σ' := by
  intro j d' hj
  rw [hnetwork] at hj
  rcases getElem?_send hj with hold | ⟨k, o, -, ho, rfl⟩
  · exact .inl ⟨d', hold, .refl d'⟩
  · exact .inr (hcalls o (List.mem_of_getElem? ho))

/-- A server acts, and sends nothing that only the client sends. -/
theorem oldDecisions_step {e : Event} (h : σ.network.step c e = some σ'.network)
    (he : ∀ dst request, e ≠ .call dst request) : OldDecisions σ σ' := by
  intro j d' hj
  rcases (Network.step_stepped h).earlier hj with hold | ⟨dst, request, hcall, -⟩ | ⟨-, hsent⟩
  · exact .inl hold
  · exact absurd hcall (he dst request)
  · refine .inr ⟨fun request hreq => ?_, fun isCommit tid hreq => ?_⟩
    · rw [hreq] at hsent
      cases hsent
    · rw [hreq] at hsent
      cases isCommit <;> cases hsent

/-- The client issues a cross-shard transaction. -/
theorem Coordinated.cross (h : Coordinated c as σ) {t : Transaction} {leaders : List Text}
    {tid leader leader' : ℤ} (hpos : 0 < tid)
    (hfresh : ∀ call ∈ σ.network.calls, ∀ request, call.request = .tpcPrepare request →
      request.tid ≠ tid)
    (hleader : leaderId c leaders (c.getClusterIdFromClientId t.sender) = some leader)
    (hleader' : leaderId c leaders (c.getClusterIdFromClientId t.receiver) = some leader')
    (hnetwork : σ'.network = send σ.network
      [⟨leader, .tpcPrepare ⟨t, tid⟩⟩, ⟨leader', .tpcPrepare ⟨t, tid⟩⟩])
    (hprocessing : σ'.processing = Function.update σ.processing tid (some { txn := t }))
    (hrouted : Network.Routed c σ'.network) :
    Coordinated c (as ++ [Action.processTransaction t leaders tid]) σ' := by
  have hlater : ∀ (j : ℕ) (d : Call), σ.network.calls[j]? = some d →
      ∃ d', σ'.network.calls[j]? = some d' ∧ Network.Later d d' := by
    intro j d hj
    refine ⟨d, ?_, .refl d⟩
    rw [hnetwork, send, List.getElem?_append_left (List.getElem?_eq_some_iff.mp hj).1, hj]
  have hsame : ∀ {i : ℕ} {request : TransferReq} {a b : Call}, PairAt c as σ i request a b →
      σ'.processing request.tid = σ.processing request.tid := by
    intro i request a b hp
    rw [hprocessing, Function.update_of_ne]
    exact hfresh a (List.mem_of_getElem? hp.first) request hp.prepares.1
  have hcases : ∀ {j : ℕ} {d : Call}, σ'.network.calls[j]? = some d →
      σ.network.calls[j]? = some d ∨ d.request = .tpcPrepare ⟨t, tid⟩ ∧
        (j = σ.network.calls.length ∨ j = σ.network.calls.length + 1) := by
    intro j d hj
    rw [hnetwork] at hj
    rcases getElem?_send hj with hold | ⟨k, o, rfl, ho, rfl⟩
    · exact .inl hold
    · rcases k with _ | _ | k
      · obtain rfl := Option.some.inj ho
        exact .inr ⟨rfl, .inl rfl⟩
      · obtain rfl := Option.some.inj ho
        exact .inr ⟨rfl, .inr rfl⟩
      · cases ho
  have hnew : ∀ {j : ℕ} {d : Call} {isCommit : Bool} {tid' : ℤ},
      σ'.network.calls[j]? = some d → d.request = .decision isCommit ⟨tid'⟩ →
        σ.network.calls[j]? = some d := by
    intro j d isCommit tid' hj hreq
    rcases hcases hj with hold | ⟨hprep, -⟩
    · exact hold
    · rw [hprep] at hreq
      cases isCommit <;> cases hreq
  have hpair : PairAt c (as ++ [Action.processTransaction t leaders tid]) σ' σ.network.calls.length
      ⟨t, tid⟩ ⟨none, leader, .tpcPrepare ⟨t, tid⟩, none, false⟩
      ⟨none, leader', .tpcPrepare ⟨t, tid⟩, none, false⟩ := by
    refine ⟨?_, ?_, ⟨rfl, rfl⟩, ⟨rfl, rfl⟩, ⟨leaders, by simp, hleader, hleader'⟩, hpos, ?_⟩
    · simp [hnetwork, send]
    · simp [hnetwork, send]
    · constructor
      · intro p hp
        rw [hprocessing, Function.update_self] at hp
        obtain rfl := Option.some.inj hp
        exact ⟨rfl, Nat.zero_le _, Nat.zero_le _⟩
      · intro hnone
        rw [hprocessing, Function.update_self] at hnone
        cases hnone
  refine ⟨hrouted, ?_, ?_, ?_, ?_⟩
  · intro j d request hj hreq
    rcases hcases hj with hold | ⟨hprep, hpos⟩
    · obtain ⟨i, a, b, hp, hij⟩ := h.pairs j d request hold hreq
      obtain ⟨a', b', hp', -⟩ := hp.later _ hlater (hsame hp)
      exact ⟨i, a', b', hp', hij⟩
    · obtain rfl : (⟨t, tid⟩ : TransferReq) = request := Request.tpcPrepare.inj (hprep.symm.trans hreq)
      exact ⟨_, _, _, hpair, hpos⟩
  · intro j j' d d' request request' hj hj' hreq hreq' htid
    rcases hcases hj with hold | ⟨hprep, hpos⟩ <;> rcases hcases hj' with hold' | ⟨hprep', hpos'⟩
    · exact h.near j j' d d' request request' hold hold' hreq hreq' htid
    · obtain rfl := Request.tpcPrepare.inj (hprep'.symm.trans hreq')
      exact absurd htid (hfresh d (List.mem_of_getElem? hold) request hreq)
    · obtain rfl := Request.tpcPrepare.inj (hprep.symm.trans hreq)
      exact absurd htid.symm (hfresh d' (List.mem_of_getElem? hold') request' hreq')
    · omega
  · intro j d isCommit tid' hj hreq hpos'
    obtain ⟨i, request, a, b, hp, rfl, hnone, hyes⟩ :=
      h.decisions j d isCommit tid' (hnew hj hreq) hreq hpos'
    obtain ⟨a', b', hp', ha, hb⟩ := hp.later _ hlater (hsame hp)
    refine ⟨i, request, a', b', hp', rfl, (hsame hp).trans hnone, fun hc => ?_⟩
    exact ⟨ha.response _ (hyes hc).1, hb.response _ (hyes hc).2⟩
  · intro j j' d d' isCommit isCommit' tid' hpos' hj hj' hreq hreq'
    exact h.once j j' d d' isCommit isCommit' tid' hpos' (hnew hj hreq) (hnew hj' hreq') hreq hreq'

/-- The end of a call of the client: the call was open, and nothing else changes. -/
theorem complete_client {i : ℕ} {status : Status} {fs : FileSystem} {call : Call} {n n' : Network}
    (hcall : n.calls[i]? = some call) (hsrc : call.src = none)
    (h : n.step c (.complete i status fs) = some n') :
    Network.canComplete call status = true ∧
      n'.calls = n.calls.set i { call with completed := true } := by
  cases Network.step_stepped h with
  | ended i status fs call' hcall' hopen =>
    obtain rfl := Option.some.inj (hcall.symm.trans hcall')
    exact ⟨hopen, rfl⟩
  | completed i status fs call' src r hcall' hopen hsome =>
    obtain rfl := Option.some.inj (hcall.symm.trans hcall')
    rw [hsrc] at hsome
    cases hsome

/-- The answer of a prepare call that ends with `OK` names the tid of its request. -/
theorem complete_answer {n n' : Network} {i : ℕ} {fs : FileSystem} {call : Call}
    {request : TransferReq} (hrouted : Network.Routed c n) (hcall : n.calls[i]? = some call)
    (hsrc : call.src = none) (hrequest : call.request = .tpcPrepare request)
    (hstep : n.step c (.complete i .ok fs) = some n') :
    ∃ ack, call.response = some (.transfer ⟨ack, request.tid⟩) ∧
      replyOf call .ok = ⟨ack, request.tid⟩ := by
  have hsome : call.response.isSome = true := by
    have hcan := (complete_client hcall hsrc hstep).1
    simpa [Network.canComplete] using (Bool.and_eq_true_iff.mp hcan).2
  obtain ⟨res, hres⟩ := Option.isSome_iff_exists.mp hsome
  obtain ⟨ack, rfl⟩ := hrouted.pollAnswer none call.dst true request res
    ⟨call, List.mem_of_getElem? hcall, hsrc, rfl, hrequest, hres⟩
  exact ⟨ack, hres, by simp [replyOf, hres, Response.toTransfer]⟩

/-- The calls after the end of a call and the client's new ones. -/
theorem getElem?_send_set {k : ℕ} {call : Call} {n : Network} {new : List OutCall} {j : ℕ}
    {d' : Call} (hcall : σ.network.calls[k]? = some call)
    (hcalls : n.calls = σ.network.calls.set k { call with completed := true })
    (hj : (send n new).calls[j]? = some d') :
    (∃ d, σ.network.calls[j]? = some d ∧ Network.Later d d') ∨
      ∃ l o, j = σ.network.calls.length + l ∧ new[l]? = some o ∧
        d' = ⟨none, o.dst, o.request, none, false⟩ := by
  have hended : Network.Later call { call with completed := true } :=
    ⟨rfl, rfl, rfl, fun _ h => h, fun _ => rfl⟩
  rcases getElem?_send hj with hold | ⟨l, o, hl, ho, hd⟩
  · rw [hcalls] at hold
    have hlen : j < σ.network.calls.length := by
      have := (List.getElem?_eq_some_iff.mp hold).1
      simpa using this
    obtain ⟨d'', hd'', hl⟩ := Network.getElem?_set_later [] hcall hended
      (List.getElem?_eq_getElem hlen)
    rw [List.append_nil, hold] at hd''
    obtain rfl := Option.some.inj hd''
    exact .inl ⟨_, List.getElem?_eq_getElem hlen, hl⟩
  · rw [hcalls, List.length_set] at hl
    exact .inr ⟨l, o, hl, ho, hd⟩

theorem send_set_later {k : ℕ} {call : Call} {n : Network} {new : List OutCall} {j : ℕ} {d : Call}
    (hcall : σ.network.calls[k]? = some call)
    (hcalls : n.calls = σ.network.calls.set k { call with completed := true })
    (hnetwork : σ'.network = send n new) (hj : σ.network.calls[j]? = some d) :
    ∃ d', σ'.network.calls[j]? = some d' ∧ Network.Later d d' := by
  rw [hnetwork, send, hcalls]
  exact Network.getElem?_set_later _ hcall ⟨rfl, rfl, rfl, fun _ h => h, fun _ => rfl⟩ hj

/-- A transaction is undecided while one of its calls is open. -/
theorem PairAt.undecided {i k : ℕ} {request : TransferReq} {a b call : Call}
    (h : PairAt c as σ i request a b) (hcall : σ.network.calls[k]? = some call)
    (hk : k = i ∨ k = i + 1) (hopen : call.completed = false) :
    ∃ p, σ.processing request.tid = some p := by
  refine Option.ne_none_iff_exists'.mp fun hnone => ?_
  obtain ⟨hca, hcb⟩ := h.tally.closed hnone
  rcases hk with rfl | rfl
  · obtain rfl := Option.some.inj (h.first.symm.trans hcall)
    rw [hopen] at hca
    cases hca
  · obtain rfl := Option.some.inj (h.second.symm.trans hcall)
    rw [hopen] at hcb
    cases hcb

/-- A call of a pair ends: one more call has ended, and with the answer `ack = true` one more
has agreed. -/
theorem PairAt.complete {i k : ℕ} {request : TransferReq} {a b call : Call}
    (h : PairAt c as σ i request a b) (hcall : σ.network.calls[k]? = some call)
    (hk : k = i ∨ k = i + 1) (hopen : call.completed = false) :
    ∃ a' b', (σ.network.calls.set k { call with completed := true })[i]? = some a' ∧
      (σ.network.calls.set k { call with completed := true })[i + 1]? = some b' ∧
      Network.Later a a' ∧ Network.Later b b' ∧ ended a' + ended b' = ended a + ended b + 1 ∧
      (call.response = some (.transfer ⟨true, request.tid⟩) →
        agreed request.tid a' + agreed request.tid b' =
          agreed request.tid a + agreed request.tid b + 1) := by
  have hlater : Network.Later call { call with completed := true } :=
    ⟨rfl, rfl, rfl, fun _ h => h, fun _ => rfl⟩
  have hlen := (List.getElem?_eq_some_iff.mp hcall).1
  have hended : ended { call with completed := true } = ended call + 1 := by
    simp [ended, hopen]
  have hagreed : call.response = some (.transfer ⟨true, request.tid⟩) →
      agreed request.tid { call with completed := true } = agreed request.tid call + 1 := by
    intro hyes
    simp [agreed, hopen, hyes]
  rcases hk with rfl | rfl
  · obtain rfl := Option.some.inj (h.first.symm.trans hcall)
    refine ⟨_, b, List.getElem?_set_self hlen, ?_, hlater, .refl b, by omega, fun hyes => ?_⟩
    · rw [List.getElem?_set_ne (by omega)]
      exact h.second
    · have := hagreed hyes
      omega
  · obtain rfl := Option.some.inj (h.second.symm.trans hcall)
    refine ⟨a, _, ?_, List.getElem?_set_self hlen, .refl a, hlater, by omega, fun hyes => ?_⟩
    · rw [List.getElem?_set_ne (by omega)]
      exact h.first
    · have := hagreed hyes
      omega

theorem decisionCalls_dst {isCommit : Bool} {tid : ℤ} {txn : Transaction} {k k' : ℕ}
    {o o' : OutCall} (hk : (decisionCalls c isCommit tid txn)[k]? = some o)
    (hk' : (decisionCalls c isCommit tid txn)[k']? = some o') (hdst : o.dst = o'.dst) :
    k = k' := by
  have hnodup : ((decisionCalls c isCommit tid txn).map OutCall.dst).Nodup := by
    unfold decisionCalls
    rw [List.map_map]
    refine List.Nodup.map_on ?_ (List.Nodup.filter _ ?_)
    · intro x hx y hy hxy
      have hx := Constants.mem_serverIds.mp (List.mem_of_mem_filter hx)
      have hy := Constants.mem_serverIds.mp (List.mem_of_mem_filter hy)
      have hxy : x.2 = y.2 := hxy
      rw [hxy] at hx
      exact Prod.ext (hx.1.trans hy.1.symm) hxy
    · exact Constants.serverIds_nodup
  have h : ((decisionCalls c isCommit tid txn).map OutCall.dst)[k]? = some o.dst := by
    rw [List.getElem?_map, hk]
    rfl
  have h' : ((decisionCalls c isCommit tid txn).map OutCall.dst)[k']? = some o.dst := by
    rw [List.getElem?_map, hk', hdst]
    rfl
  exact (List.getElem?_inj (List.getElem?_eq_some_iff.mp h).1 hnodup).mp (h.trans h'.symm)

/-- The prepare call `call` of the pair at `i` ends and is counted: no counter of another
transaction changes, and the decision `isCommit`, if there is one, goes to the servers of
`new`. -/
structure Counts (c : Constants) (as : List Action) (σ σ' : System) (k i : ℕ)
    (request : TransferReq) (a b call : Call) (isCommit : Bool) (new : List OutCall) : Prop where
  pair : PairAt c as σ i request a b
  member : k = i ∨ k = i + 1
  get : σ.network.calls[k]? = some call
  pending : call.completed = false
  sent : ∃ n, n.calls = σ.network.calls.set k { call with completed := true } ∧
    σ'.network = send n new
  others : ∀ tid, tid ≠ request.tid → σ'.processing tid = σ.processing tid
  requests : ∀ o ∈ new, o.request = .decision isCommit ⟨request.tid⟩
  servers : ∀ (l l' : ℕ) (o o' : OutCall), new[l]? = some o → new[l']? = some o' →
    o.dst = o'.dst → l = l'

namespace Counts

variable {k i : ℕ} {request : TransferReq} {a b call a' b' : Call} {isCommit : Bool}
  {new : List OutCall}

theorem later (hc : Counts c as σ σ' k i request a b call isCommit new) (j : ℕ) (d : Call)
    (hj : σ.network.calls[j]? = some d) :
    ∃ d', σ'.network.calls[j]? = some d' ∧ Network.Later d d' := by
  obtain ⟨n, hcalls, hnetwork⟩ := hc.sent
  exact send_set_later hc.get hcalls hnetwork hj

theorem origin (hc : Counts c as σ σ' k i request a b call isCommit new) {j : ℕ} {d' : Call}
    (hj : σ'.network.calls[j]? = some d') :
    (∃ d, σ.network.calls[j]? = some d ∧ Network.Later d d') ∨
      ∃ l o, j = σ.network.calls.length + l ∧ new[l]? = some o ∧
        d' = ⟨none, o.dst, o.request, none, false⟩ := by
  obtain ⟨n, hcalls, hnetwork⟩ := hc.sent
  rw [hnetwork] at hj
  exact getElem?_send_set hc.get hcalls hj

/-- A prepare call after the end of the call is one from before. -/
theorem prepare_origin (hc : Counts c as σ σ' k i request a b call isCommit new) {j : ℕ}
    {d' : Call} {request' : TransferReq} (hj : σ'.network.calls[j]? = some d')
    (hreq : d'.request = .tpcPrepare request') :
    ∃ d, σ.network.calls[j]? = some d ∧ d.request = .tpcPrepare request' := by
  rcases hc.origin hj with ⟨d, hd, hl⟩ | ⟨l, o, -, ho, rfl⟩
  · exact ⟨d, hd, hl.request.symm.trans hreq⟩
  · rw [hc.requests o (List.mem_of_getElem? ho)] at hreq
    cases isCommit <;> cases hreq

/-- A decision that the client sends now is the decision on the transaction of the call. -/
theorem decision_eq (hc : Counts c as σ σ' k i request a b call isCommit new) {l : ℕ}
    {o : OutCall} {isCommit' : Bool} {tid : ℤ} (ho : new[l]? = some o)
    (hreq : o.request = .decision isCommit' ⟨tid⟩) :
    isCommit' = isCommit ∧ tid = request.tid := by
  rw [hc.requests o (List.mem_of_getElem? ho)] at hreq
  cases isCommit <;> cases isCommit' <;> cases hreq <;> exact ⟨rfl, rfl⟩

/-- The transaction of a call that has not ended has no decision yet. -/
theorem no_decision (hc : Counts c as σ σ' k i request a b call isCommit new)
    (h : Coordinated c as σ) {j : ℕ} {d : Call} {isCommit' : Bool}
    (hj : σ.network.calls[j]? = some d) : d.request ≠ .decision isCommit' ⟨request.tid⟩ := by
  intro hreq
  obtain ⟨p, hproc⟩ := hc.pair.undecided hc.get hc.member hc.pending
  obtain ⟨-, -, -, -, -, -, hnone, -⟩ := h.decisions j d isCommit' _ hj hreq hc.pair.positive
  rw [hproc] at hnone
  cases hnone

/-- The two calls of the pair afterwards: one more has ended, and with a positive answer one
more has agreed. -/
theorem calls (hc : Counts c as σ σ' k i request a b call isCommit new) :
    ∃ a' b', σ'.network.calls[i]? = some a' ∧ σ'.network.calls[i + 1]? = some b' ∧
      Network.Later a a' ∧ Network.Later b b' ∧ ended a' + ended b' = ended a + ended b + 1 ∧
      (call.response = some (.transfer ⟨true, request.tid⟩) →
        agreed request.tid a' + agreed request.tid b' =
          agreed request.tid a + agreed request.tid b + 1) := by
  obtain ⟨n, hcalls, hnetwork⟩ := hc.sent
  obtain ⟨a', b', hfirst, hsecond, hrest⟩ := hc.pair.complete hc.get hc.member hc.pending
  have happend : ∀ {j : ℕ} {d : Call},
      (σ.network.calls.set k { call with completed := true })[j]? = some d →
        σ'.network.calls[j]? = some d := by
    intro j d hj
    rw [hnetwork, send, hcalls, List.getElem?_append_left (List.getElem?_eq_some_iff.mp hj).1, hj]
  exact ⟨a', b', happend hfirst, happend hsecond, hrest⟩

/-- Every pair is still one: the counted pair by `hown`, the others since nothing of them
changes. -/
theorem pairs (hc : Counts c as σ σ' k i request a b call isCommit new) (h : Coordinated c as σ)
    (act : Action) (hown : PairAt c (as ++ [act]) σ' i request a' b') (ha : Network.Later a a')
    (hb : Network.Later b b') {i₀ : ℕ} {request₀ : TransferReq} {a₀ b₀ : Call}
    (hp : PairAt c as σ i₀ request₀ a₀ b₀) :
    ∃ a₁ b₁, PairAt c (as ++ [act]) σ' i₀ request₀ a₁ b₁ ∧
      Network.Later a₀ a₁ ∧ Network.Later b₀ b₁ := by
  by_cases htid : request₀.tid = request.tid
  · obtain ⟨rfl, rfl, rfl⟩ := h.pair_unique hp hc.pair htid
    obtain rfl := Request.tpcPrepare.inj (hp.prepares.1.symm.trans hc.pair.prepares.1)
    exact ⟨a', b', hown, ha, hb⟩
  · exact hp.later act hc.later (hc.others _ htid)

/-- A decision of the table afterwards: an old one keeps its pair, a new one has the pair that
was counted. -/
theorem decided (hc : Counts c as σ σ' k i request a b call isCommit new)
    (h : Coordinated c as σ) (act : Action) (hown : PairAt c (as ++ [act]) σ' i request a' b')
    (ha : Network.Later a a') (hb : Network.Later b b')
    (hnew : new ≠ [] → σ'.processing request.tid = none ∧
      (isCommit = true → agreed request.tid a' + agreed request.tid b' = 2))
    {j : ℕ} {d' : Call} {isCommit' : Bool} {tid : ℤ} (hj : σ'.network.calls[j]? = some d')
    (hreq : d'.request = .decision isCommit' ⟨tid⟩) (hpos : 0 < tid) :
    ∃ i₀ request₀ a₁ b₁, PairAt c (as ++ [act]) σ' i₀ request₀ a₁ b₁ ∧ request₀.tid = tid ∧
      σ'.processing tid = none ∧ (isCommit' = true →
        a₁.response = some (.transfer ⟨true, tid⟩) ∧
          b₁.response = some (.transfer ⟨true, tid⟩)) := by
  rcases hc.origin hj with ⟨d, hd, hl⟩ | ⟨l, o, -, ho, rfl⟩
  · have hreqd := hl.request.symm.trans hreq
    obtain ⟨i₀, request₀, a₀, b₀, hp₀, rfl, hnone, hyes⟩ :=
      h.decisions j d isCommit' tid hd hreqd hpos
    have htid : request₀.tid ≠ request.tid := by
      intro htid
      rw [htid] at hreqd
      exact hc.no_decision h hd hreqd
    obtain ⟨a₁, b₁, hp₁, ha₁, hb₁⟩ := hc.pairs h act hown ha hb hp₀
    refine ⟨i₀, request₀, a₁, b₁, hp₁, rfl, (hc.others _ htid).trans hnone, fun hcommit => ?_⟩
    exact ⟨ha₁.response _ (hyes hcommit).1, hb₁.response _ (hyes hcommit).2⟩
  · obtain ⟨rfl, rfl⟩ := hc.decision_eq ho hreq
    obtain ⟨hnone, hyes⟩ := hnew (List.ne_nil_of_mem (List.mem_of_getElem? ho))
    refine ⟨i, request, a', b', hown, rfl, hnone, fun hcommit => ?_⟩
    have hsum := hyes hcommit
    have hlea := agreed_le_one request.tid a'
    have hleb := agreed_le_one request.tid b'
    exact ⟨answered_of_agreed (by omega), answered_of_agreed (by omega)⟩

/-- Two decisions on one transaction agree and have different destinations. -/
theorem once (hc : Counts c as σ σ' k i request a b call isCommit new) (h : Coordinated c as σ)
    {j j' : ℕ} {d d' : Call} {isCommit₀ isCommit₁ : Bool} {tid : ℤ} (hpos : 0 < tid)
    (hj : σ'.network.calls[j]? = some d) (hj' : σ'.network.calls[j']? = some d')
    (hreq : d.request = .decision isCommit₀ ⟨tid⟩)
    (hreq' : d'.request = .decision isCommit₁ ⟨tid⟩) :
    isCommit₀ = isCommit₁ ∧ (d.dst = d'.dst → j = j') := by
  rcases hc.origin hj with ⟨e, he, hl⟩ | ⟨l, o, rfl, ho, rfl⟩ <;>
    rcases hc.origin hj' with ⟨e', he', hl'⟩ | ⟨l', o', rfl, ho', rfl⟩
  · rw [hl.dst, hl'.dst]
    exact h.once j j' e e' isCommit₀ isCommit₁ tid hpos he he' (hl.request.symm.trans hreq)
      (hl'.request.symm.trans hreq')
  · obtain ⟨-, rfl⟩ := hc.decision_eq ho' hreq'
    exact absurd (hl.request.symm.trans hreq) (hc.no_decision h he)
  · obtain ⟨-, rfl⟩ := hc.decision_eq ho hreq
    exact absurd (hl'.request.symm.trans hreq') (hc.no_decision h he')
  · obtain ⟨rfl, -⟩ := hc.decision_eq ho hreq
    obtain ⟨rfl, -⟩ := hc.decision_eq ho' hreq'
    refine ⟨rfl, fun heq => ?_⟩
    rw [hc.servers l l' o o' ho ho' heq]

end Counts

/-- A prepare call is counted for its transaction, and the new counters tally with the calls of
the pair. -/
theorem Coordinated.counted (h : Coordinated c as σ) (act : Action) {isCommit : Bool} {k i : ℕ}
    {request : TransferReq} {a b call : Call} {new : List OutCall}
    (hc : Counts c as σ σ' k i request a b call isCommit new)
    (htally : ∀ a' b', Network.Later a a' → Network.Later b b' →
      ended a' + ended b' = ended a + ended b + 1 →
      (call.response = some (.transfer ⟨true, request.tid⟩) →
        agreed request.tid a' + agreed request.tid b' =
          agreed request.tid a + agreed request.tid b + 1) →
      Tally σ'.processing request a' b' ∧ (new ≠ [] → σ'.processing request.tid = none ∧
        (isCommit = true → agreed request.tid a' + agreed request.tid b' = 2)))
    (hrouted : Network.Routed c σ'.network) : Coordinated c (as ++ [act]) σ' := by
  obtain ⟨a', b', hfirst, hsecond, ha, hb, hended, hagreed⟩ := hc.calls
  obtain ⟨htally, hnew⟩ := htally a' b' ha hb hended hagreed
  have hown : PairAt c (as ++ [act]) σ' i request a' b' :=
    hc.pair.move act hfirst hsecond ha hb htally
  refine ⟨hrouted, ?_, ?_, ?_, ?_⟩
  · intro j d' request' hj hreq
    obtain ⟨d, hd, hreqd⟩ := hc.prepare_origin hj hreq
    obtain ⟨i₀, a₀, b₀, hp₀, hpos⟩ := h.pairs j d request' hd hreqd
    obtain ⟨a₁, b₁, hp₁, -⟩ := hc.pairs h act hown ha hb hp₀
    exact ⟨i₀, a₁, b₁, hp₁, hpos⟩
  · intro j j' d d' request₀ request₁ hj hj' hreq hreq' htid
    obtain ⟨e, he, hreqe⟩ := hc.prepare_origin hj hreq
    obtain ⟨e', he', hreqe'⟩ := hc.prepare_origin hj' hreq'
    exact h.near j j' e e' request₀ request₁ he he' hreqe hreqe' htid
  · intro j d' isCommit' tid hj hreq hpos
    exact hc.decided h act hown ha hb hnew hj hreq hpos
  · intro j j' d d' isCommit₀ isCommit₁ tid hpos hj hj' hreq hreq'
    exact hc.once h hpos hj hj' hreq hreq'

theorem countReply_sum (processing : ℤ → Option TpcPrepareRes) (status : Status)
    (reply : TransferRes) {p : TpcPrepareRes} (hp : processing reply.tid = some p) :
    (countReply processing status reply).txn = p.txn ∧
      (countReply processing status reply).successes +
        (countReply processing status reply).failures = p.successes + p.failures + 1 ∧
      ((countReply processing status reply).successes = p.successes ∨ reply.ack = true ∧
        (countReply processing status reply).successes = p.successes + 1) := by
  unfold countReply
  rw [hp, Option.getD_some]
  dsimp only
  split_ifs with hfail
  · exact ⟨rfl, by dsimp only; omega, .inl rfl⟩
  · have hack : reply.ack = true := by
      by_contra hne
      exact hfail (.inr (by simpa using hne))
    exact ⟨rfl, by dsimp only; omega, .inr ⟨hack, rfl⟩⟩

theorem consumeReply_of_ne {processing : ℤ → Option TpcPrepareRes} {status : Status}
    {reply : TransferRes} {tid : ℤ} (htid : tid ≠ reply.tid) :
    (consumeReply c processing status reply).1 tid = processing tid := by
  unfold consumeReply
  dsimp only
  split_ifs <;> exact Function.update_of_ne htid _ _

/-- The counters with the answer of a call that ends stay below what the calls of the pair have
answered. -/
theorem Tally.countReply {request : TransferReq} {a b a' b' call : Call} {p : TpcPrepareRes}
    {ack : Bool} (h : Tally σ.processing request a b) (hproc : σ.processing request.tid = some p)
    (hresponse : call.response = some (.transfer ⟨ack, request.tid⟩)) (ha : Network.Later a a')
    (hb : Network.Later b b') (hended : ended a' + ended b' = ended a + ended b + 1)
    (hagreed : call.response = some (.transfer ⟨true, request.tid⟩) →
      agreed request.tid a' + agreed request.tid b' =
        agreed request.tid a + agreed request.tid b + 1) :
    (countReply σ.processing .ok ⟨ack, request.tid⟩).txn = request.txn ∧
      (countReply σ.processing .ok ⟨ack, request.tid⟩).successes +
        (countReply σ.processing .ok ⟨ack, request.tid⟩).failures ≤ ended a' + ended b' ∧
      (countReply σ.processing .ok ⟨ack, request.tid⟩).successes ≤
        agreed request.tid a' + agreed request.tid b' := by
  obtain ⟨htxn, hsum, hyes⟩ := h.counted p hproc
  obtain ⟨htxn', hsum', hyes'⟩ := countReply_sum σ.processing .ok ⟨ack, request.tid⟩ hproc
  have hla : agreed request.tid a ≤ agreed request.tid a' := agreed_le ha
  have hlb : agreed request.tid b ≤ agreed request.tid b' := agreed_le hb
  refine ⟨htxn'.trans htxn, by omega, ?_⟩
  rcases hyes' with hsame | ⟨hack, hmore⟩
  · omega
  · obtain rfl : ack = true := hack
    have := hagreed hresponse
    omega

/-- A failed call is counted under the tid 0, which no transaction has. -/
theorem failed_quiet {k : ℕ} {status : Status} {fs : FileSystem} {call : Call} {n : Network}
    (hcall : σ.network.calls[k]? = some call) (hsrc : call.src = none) (hfailed : status ≠ .ok)
    (hstep : σ.network.step c (.complete k status fs) = some n)
    (hnetwork : σ'.network = send n (consumeReply c σ.processing status (replyOf call status)).2)
    (hprocessing : σ'.processing = (consumeReply c σ.processing status (replyOf call status)).1) :
    (∀ tid, 0 < tid → σ'.processing tid = σ.processing tid) ∧ OldDecisions σ σ' := by
  obtain ⟨-, hcalls⟩ := complete_client hcall hsrc hstep
  have hzero : (replyOf call status).tid = 0 := by
    rw [replyOf, if_neg hfailed]
  constructor
  · intro tid hpos
    rw [hprocessing]
    exact consumeReply_of_ne (by omega)
  · intro j d' hj
    rw [hnetwork] at hj
    rcases getElem?_send_set hcall hcalls hj with hold | ⟨l, o, -, ho, rfl⟩
    · exact .inl hold
    · obtain ⟨x, hx⟩ := consumeReply_request (List.mem_of_getElem? ho)
      refine .inr ⟨fun request' hreq => ?_, fun isCommit tid hreq => ?_⟩
      · rw [hx] at hreq
        cases x <;> cases hreq
      · rw [hx, hzero] at hreq
        cases x <;> cases isCommit <;> cases hreq <;> exact le_rfl

/-- The client consumes the reply to a prepare call. -/
theorem Coordinated.consumed (h : Coordinated c as σ) (act : Action) {k : ℕ} {status : Status}
    {fs : FileSystem} {call : Call} {request : TransferReq} {n : Network}
    (hcall : σ.network.calls[k]? = some call) (hsrc : call.src = none)
    (hrequest : call.request = .tpcPrepare request)
    (hstep : σ.network.step c (.complete k status fs) = some n)
    (hnetwork : σ'.network = send n (consumeReply c σ.processing status (replyOf call status)).2)
    (hprocessing : σ'.processing = (consumeReply c σ.processing status (replyOf call status)).1)
    (hrouted : Network.Routed c σ'.network) : Coordinated c (as ++ [act]) σ' := by
  obtain ⟨hcan, hcalls⟩ := complete_client hcall hsrc hstep
  have hopen : call.completed = false := by
    have := (Bool.and_eq_true_iff.mp hcan).1
    simpa using this
  have hothers : ∀ tid, tid ≠ (replyOf call status).tid → σ'.processing tid = σ.processing tid := by
    intro tid htid
    rw [hprocessing]
    exact consumeReply_of_ne htid
  by_cases hok : status = .ok
  swap
  · obtain ⟨hsame, hold⟩ := failed_quiet hcall hsrc hok hstep hnetwork hprocessing
    exact h.quiet act hrouted hsame (fun j d hj => send_set_later hcall hcalls hnetwork hj) hold
  subst hok
  obtain ⟨i, a, b, hp, hk⟩ := h.pairs k call request hcall hrequest
  obtain ⟨ack, hresponse, hreply⟩ := complete_answer h.routed hcall hsrc hrequest hstep
  rw [hreply] at hnetwork hprocessing hothers
  obtain ⟨p, hproc⟩ := hp.undecided hcall hk hopen
  have hbound := fun {a' b' : Call} (ha : Network.Later a a') (hb : Network.Later b b') =>
    hp.tally.countReply hproc hresponse ha hb
  dsimp only [consumeReply] at hnetwork hprocessing
  generalize countReply σ.processing .ok ⟨ack, request.tid⟩ = p' at *
  split_ifs at hnetwork hprocessing with hdecide
  · have hcounts : Counts c as σ σ' k i request a b call (decide (p'.successes = 2)) _ :=
      ⟨hp, hk, hcall, hopen, ⟨n, hcalls, hnetwork⟩, hothers, fun o ho => decisionCalls_request ho,
        fun l l' o o' hl hl' hd => decisionCalls_dst hl hl' hd⟩
    refine h.counted act hcounts ?_ hrouted
    intro a' b' ha hb hended hagreed
    obtain ⟨-, hcount, hyes⟩ := hbound ha hb hended hagreed
    have hnone : σ'.processing request.tid = none := by
      rw [hprocessing]
      exact Function.update_self _ _ _
    have hea := ended_le_one a'
    have heb := ended_le_one b'
    refine ⟨⟨fun q hq => ?_, fun _ => ?_⟩, fun _ => ⟨hnone, fun hc => ?_⟩⟩
    · rw [hnone] at hq
      cases hq
    · have htwo : 2 ≤ p'.successes + p'.failures := by omega
      exact ⟨completed_of_ended (by omega), completed_of_ended (by omega)⟩
    · have htwo : p'.successes = 2 := of_decide_eq_true hc
      have hla := agreed_le_one request.tid a'
      have hlb := agreed_le_one request.tid b'
      omega
  · have hcounts : Counts c as σ σ' k i request a b call false [] :=
      ⟨hp, hk, hcall, hopen, ⟨n, hcalls, hnetwork⟩, hothers, fun o ho => absurd ho List.not_mem_nil,
        fun l l' o o' hl => absurd hl (by simp)⟩
    refine h.counted act hcounts ?_ hrouted
    intro a' b' ha hb hended hagreed
    have hcounted := hbound ha hb hended hagreed
    have hset : σ'.processing request.tid = some p' := by
      rw [hprocessing]
      exact Function.update_self _ _ _
    refine ⟨⟨fun q hq => ?_, fun hnone => ?_⟩, fun hne => absurd rfl hne⟩
    · rw [hset] at hq
      obtain rfl := Option.some.inj hq
      exact hcounted
    · rw [hset] at hnone
      cases hnone

/-- A cross-shard transaction gets a positive tid that no other one has. -/
def FreshTid (c : Constants) (σ : System) : Action → Prop
  | .processTransaction t _ tid =>
      c.getClusterIdFromClientId t.sender ≠ c.getClusterIdFromClientId t.receiver →
        0 < tid ∧ ∀ call ∈ σ.network.calls, call.request.preparedTid ≠ some tid
  | _ => True

instance (c : Constants) (σ : System) (a : Action) : Decidable (FreshTid c σ a) := by
  cases a <;> dsimp only [FreshTid] <;> infer_instance

theorem Coordinated.step (h : Coordinated c as σ) (hstep : Stepped c σ act σ')
    (hfresh : FreshTid c σ act) : Coordinated c (as ++ [act]) σ' := by
  have hrouted := hstep.routed h.routed
  have hlater : ∀ (j : ℕ) (d : Call), σ.network.calls[j]? = some d →
      ∃ d', σ'.network.calls[j]? = some d' ∧ Network.Later d d' :=
    fun j d hj => hstep.later hj
  cases hstep with
  | intra t leaders tid leader hsame hleader =>
    refine h.quiet _ hrouted (fun _ _ => rfl) hlater (oldDecisions_send rfl ?_)
    intro o ho
    obtain rfl := List.mem_singleton.mp ho
    exact ⟨nofun, fun isCommit _ hreq => by cases isCommit <;> cases hreq⟩
  | cross t leaders tid leader leader' hne hleader hleader' =>
    obtain ⟨hpos, hfresh⟩ := hfresh hne
    refine h.cross hpos (fun call hmem request hreq htid => ?_) hleader hleader' rfl rfl hrouted
    apply hfresh call hmem
    rw [hreq, ← htid]
    rfl
  | asked act calls ha hasks =>
    refine h.quiet _ hrouted (fun _ _ => rfl) hlater (oldDecisions_send rfl ?_)
    intro o ho
    have hask := (hasks o ho).2
    refine ⟨fun request hreq => ?_, fun isCommit tid hreq => ?_⟩
    · rw [hreq] at hask
      exact hask.elim
    · rw [hreq] at hask
      cases isCommit <;> exact hask.elim
  | delivered i fs n hn =>
    exact h.quiet _ hrouted (fun _ _ => rfl) hlater (oldDecisions_step hn nofun)
  | completed i status fs call n hcall hother hn =>
    exact h.quiet _ hrouted (fun _ _ => rfl) hlater (oldDecisions_step hn nofun)
  | consumed i status fs call request n hcall hsrc hrequest hn =>
    exact h.consumed _ hcall hsrc hrequest hn rfl rfl hrouted

theorem reaches_coordinated {disk : ℤ → Disk}
    (h : Reaches c (fun σ a => FreshTid c σ a) disk as σ) : Coordinated c as σ := by
  induction h with
  | refl => exact coordinated_init c disk
  | snoc _ hguard hstep ih => exact ih.step (step_stepped hstep) hguard

theorem reaches_provenance {disk : ℤ → Disk} (h : Reaches c (fun _ a => a.working) disk as σ) :
    Network.Provenance c σ.network :=
  h.invariant (I := fun σ => Network.Provenance c σ.network) (Network.provenance_init c disk)
    fun _ _ _ hn hworking hs => (step_stepped hs).provenance hworking hn

/-! ### The outcome -/

/-- The client issued a transaction under a tid, and both leaders that it then contacted have
answered `ack = true`. -/
def Agreed (c : Constants) (as : List Action) (σ : System) (request : TransferReq) : Prop :=
  ∃ (leaders : List Text) (i : ℕ) (a b : Call),
    Action.processTransaction request.txn leaders request.tid ∈ as ∧
    leaderId c leaders (c.getClusterIdFromClientId request.txn.sender) = some a.dst ∧
    leaderId c leaders (c.getClusterIdFromClientId request.txn.receiver) = some b.dst ∧
    σ.network.calls[i]? = some a ∧ σ.network.calls[i + 1]? = some b ∧
    (a.request = .tpcPrepare request ∧ b.request = .tpcPrepare request) ∧
    a.response = some (.transfer ⟨true, request.tid⟩) ∧
    b.response = some (.transfer ⟨true, request.tid⟩)

/-- The client sends every server at most one decision for a tid, and one kind of decision to
all of them; no two servers hold different outcomes of a transaction; and a committed one is
what the client issued and both leaders prepared. -/
structure TwoPhaseOutcome (c : Constants) (as : List Action) (σ : System) : Prop where
  once : ∀ (j j' : ℕ) (d d' : Call) isCommit isCommit' tid, 0 < tid →
    σ.network.calls[j]? = some d → σ.network.calls[j']? = some d' →
      d.request = .decision isCommit ⟨tid⟩ → d'.request = .decision isCommit' ⟨tid⟩ →
        isCommit = isCommit' ∧ (d.dst = d'.dst → j = j')
  agree : ∀ x y, 0 < x → 0 < y → ∀ e ∈ (σ.network.servers x).log,
    ∀ e' ∈ (σ.network.servers y).log, e.type = .cross → e'.type = .cross →
      e.status = .committed → e'.status = .aborted → e.tid ≠ e'.tid
  committed : ∀ x, 0 < x → ∀ e ∈ (σ.network.servers x).log, e.type = .cross →
    e.status = .committed → Agreed c as σ ⟨e.txn, e.tid⟩

/-- The pair of calls behind a cross-shard entry. -/
theorem Coordinated.pair_of_entry (h : Coordinated c as σ)
    (hprov : Network.Provenance c σ.network) {x : ℤ} (hx : 0 < x) {e : WALEntry}
    (he : e ∈ (σ.network.servers x).log) (htype : e.type = .cross) :
    ∃ i a b, PairAt c as σ i ⟨e.txn, e.tid⟩ a b := by
  obtain ⟨dst, -, d, hmem, -, -, hreq⟩ :=
    (hprov.logs x (c.clusterIdFromServerId_pos hx) e he).issued
  rw [show decide (e.type = .cross) = true from decide_eq_true htype] at hreq
  obtain ⟨j, hj⟩ := List.mem_iff_getElem?.mp hmem
  obtain ⟨i, a, b, hp, -⟩ := h.pairs j d _ hj hreq
  exact ⟨i, a, b, hp⟩

theorem Coordinated.outcome (h : Coordinated c as σ) (hprov : Network.Provenance c σ.network) :
    TwoPhaseOutcome c as σ := by
  refine ⟨h.once, ?_, ?_⟩
  · intro x y hx hy e he e' he' htype htype' hcommitted haborted htid
    obtain ⟨i, a, b, hp⟩ := h.pair_of_entry hprov hx he htype
    obtain ⟨dst, d, hmem, -, -, hreq⟩ := (hprov.logs x
      (c.clusterIdFromServerId_pos hx) e he).committed htype hcommitted
    obtain ⟨dst', d', hmem', -, -, hreq'⟩ := (hprov.logs y
      (c.clusterIdFromServerId_pos hy) e' he').aborted htype' haborted
    obtain ⟨j, hj⟩ := List.mem_iff_getElem?.mp hmem
    obtain ⟨j', hj'⟩ := List.mem_iff_getElem?.mp hmem'
    rw [← htid] at hreq'
    have hsame := (h.once j j' d d' true false e.tid hp.positive hj hj' hreq hreq').1
    cases hsame
  · intro x hx e he htype hcommitted
    obtain ⟨i, a, b, hp⟩ := h.pair_of_entry hprov hx he htype
    obtain ⟨dst, d, hmem, -, -, hreq⟩ := (hprov.logs x
      (c.clusterIdFromServerId_pos hx) e he).committed htype hcommitted
    obtain ⟨j, hj⟩ := List.mem_iff_getElem?.mp hmem
    obtain ⟨i', request, a', b', hp', htid, -, hyes⟩ :=
      h.decisions j d true e.tid hj hreq hp.positive
    obtain ⟨rfl, rfl, rfl⟩ := h.pair_unique hp' hp htid
    obtain ⟨leaders, hissued, hsender, hreceiver⟩ := hp.contacted
    exact ⟨leaders, i', a', b', hissued, hsender, hreceiver, hp.first, hp.second, hp.prepares,
      (hyes rfl).1, (hyes rfl).2⟩

/-- The outcome of two-phase commit in every run of the system in which file operations
succeed and cross-shard transactions have distinct positive tids. -/
theorem reaches_twoPhaseOutcome {disk : ℤ → Disk}
    (h : Reaches c (fun σ a => a.working ∧ FreshTid c σ a) disk as σ) : TwoPhaseOutcome c as σ :=
  (reaches_coordinated (h.mono fun _ _ hguard => hguard.2)).outcome
    (reaches_provenance (h.mono fun _ _ hguard => hguard.1))

/-- Servers 1 and 4 prepare a transaction and commit it. -/
def committedRun : List Action :=
  [.processTransaction ⟨1, 1001, 3⟩ ["S1".toList, "S4".toList, "S7".toList] 7, .arrives 0,
    .arrives 1, .arrives 2, .returns 2, .arrives 0, .arrives 6, .returns 6, .arrives 0, .arrives 4,
    .returns 4, .arrives 1, .arrives 10, .returns 10, .arrives 1, .returns 0, .returns 1,
    .arrives 14, .arrives 17]

theorem twoPhaseOutcome_committedRun :
    ∃ σ, run (step .standard) (init .standard fun _ => .empty) committedRun = some σ ∧
      (∃ e ∈ (σ.network.servers 1).log, e.type = .cross ∧ e.status = .committed) ∧
      TwoPhaseOutcome .standard committedRun σ := by
  obtain ⟨σ, hσ, hcommitted⟩ := (Option.any_eq_true _ _).mp
    (show (runIf (step .standard) (FreshTid .standard) (init .standard fun _ => .empty)
      committedRun).any (fun σ => decide (∃ e ∈ (σ.network.servers 1).log,
        e.type = .cross ∧ e.status = .committed)) = true by decide +kernel)
  have hfresh := runs_of_runIf hσ
  have hworking : Runs (step .standard) (fun _ a => a.working) (init .standard fun _ => .empty)
      committedRun σ := by
    refine runs_of_forall hfresh.run_eq ?_
    simp [committedRun, Action.arrives, Action.returns, Action.working,
      FileSystem.allOpen_working]
  exact ⟨σ, hfresh.run_eq, of_decide_eq_true hcommitted,
    reaches_twoPhaseOutcome (hworking.and hfresh)⟩

end System
end TpcBank
