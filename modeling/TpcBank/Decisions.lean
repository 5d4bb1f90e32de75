import TpcBank.TwoPhaseCommit

/-! Every cross-shard transaction gets its decision, as long as both of its prepare calls end
with an answer: the reply of a failed call is counted under the tid 0. -/
namespace TpcBank
open Decimal Transition

/-- The action ends a call, with status `OK`. -/
def Action.endsOk (i : ℕ) : Action → Bool
  | .complete j .ok _ => j = i
  | _ => false

namespace System

variable {c : Constants} {as : List Action} {σ σ' : System} {act : Action}

/-- A call has ended with status `OK`. -/
def okEnded (as : List Action) (i : ℕ) : Bool := as.any fun act => act.endsOk i

theorem okEnded_snoc (as : List Action) (act : Action) (i : ℕ) :
    okEnded (as ++ [act]) i = (okEnded as i || act.endsOk i) := by
  simp [okEnded]

/-- A prepare call has ended with the answer `ack = true`. -/
def acked (as : List Action) (i : ℕ) (tid : ℤ) (a : Call) : Bool :=
  okEnded as i && a.response = some (.transfer ⟨true, tid⟩)

/-- The server belongs to one of the two clusters of a transaction. -/
def Concerns (c : Constants) (txn : Transaction) (id : ℤ) : Prop :=
  (1 ≤ id ∧ id ≤ c.numClusters * c.clusterSize) ∧
    (c.getClusterIdFromServerId id = c.getClusterIdFromClientId txn.sender ∨
      c.getClusterIdFromServerId id = c.getClusterIdFromClientId txn.receiver)

/-- The client has sent one decision for a transaction, to each server of its two clusters, and
has forgotten the transaction. -/
structure DecisionSent (c : Constants) (σ : System) (request : TransferReq) (isCommit : Bool) :
    Prop where
  closed : σ.processing request.tid = none
  all : ∀ id, Concerns c request.txn id → ∃ (j : ℕ) (d : Call), σ.network.calls[j]? = some d ∧
    d.src = none ∧ d.dst = id ∧ d.request = .decision isCommit ⟨request.tid⟩
  only : ∀ (j : ℕ) (d : Call) isCommit', σ.network.calls[j]? = some d →
    d.request = .decision isCommit' ⟨request.tid⟩ →
      isCommit' = isCommit ∧ Concerns c request.txn d.dst
  once : ∀ (j j' : ℕ) (d d' : Call) isCommit' isCommit'', σ.network.calls[j]? = some d →
    σ.network.calls[j']? = some d' → d.request = .decision isCommit' ⟨request.tid⟩ →
      d'.request = .decision isCommit'' ⟨request.tid⟩ → d.dst = d'.dst → j = j'

/-- The prepare calls of a transaction are at two positions of the table that follow each other. -/
structure PreparedBy (σ : System) (i : ℕ) (request : TransferReq) (a b : Call) : Prop where
  first : σ.network.calls[i]? = some a
  second : σ.network.calls[i + 1]? = some b
  source : a.src = none ∧ b.src = none
  prepares : a.request = .tpcPrepare request ∧ b.request = .tpcPrepare request

theorem PairAt.preparedBy {i : ℕ} {request : TransferReq} {a b : Call}
    (h : PairAt c as σ i request a b) : PreparedBy σ i request a b :=
  ⟨h.first, h.second, h.source, h.prepares⟩

/-- The counters of a transaction are exactly the answers that its two prepare calls have ended
with, and its entry goes when there are two. -/
structure CountedAt (c : Constants) (as : List Action) (σ : System) (i : ℕ) (request : TransferReq)
    (a b : Call) : Prop where
  counted : ∀ p, σ.processing request.tid = some p → p.txn = request.txn ∧
    p.successes + p.failures = (okEnded as i).toNat + (okEnded as (i + 1)).toNat ∧
    p.successes + p.failures ≤ 1 ∧
    p.successes = (acked as i request.tid a).toNat + (acked as (i + 1) request.tid b).toNat
  decided : σ.processing request.tid = none → okEnded as i = true ∧ okEnded as (i + 1) = true ∧
    DecisionSent c σ request (acked as i request.tid a && acked as (i + 1) request.tid b)

/-- What the client has counted for its cross-shard transactions. -/
structure Tallied (c : Constants) (as : List Action) (σ : System) : Prop where
  coordinated : Coordinated c as σ
  ended : ∀ i, okEnded as i = true → ∃ d, σ.network.calls[i]? = some d ∧ d.completed = true ∧
    d.response.isSome = true
  counts : ∀ i request a b, PreparedBy σ i request a b → CountedAt c as σ i request a b

theorem tallied_init (c : Constants) (disk : ℤ → Disk) : Tallied c [] (init c disk) where
  coordinated := coordinated_init c disk
  ended := nofun
  counts := by
    intro i request a b h
    cases List.mem_of_getElem? h.first

/-- A call that has ended with `OK` keeps its answer. -/
theorem Tallied.acked_later (h : Tallied c as σ) {i : ℕ} {tid : ℤ} {a a' : Call}
    (ha : σ.network.calls[i]? = some a) (hlater : Network.Later a a') :
    acked as i tid a' = acked as i tid a := by
  unfold acked
  cases hok : okEnded as i with
  | false => rfl
  | true =>
    obtain ⟨d, hd, -, hsome⟩ := h.ended i hok
    obtain rfl := Option.some.inj (ha.symm.trans hd)
    obtain ⟨res, hres⟩ := Option.isSome_iff_exists.mp hsome
    rw [hres, hlater.response res hres]

theorem Stepped.completes {i : ℕ} {fs : FileSystem} (h : Stepped c σ (.complete i .ok fs) σ') :
    ∃ d, σ'.network.calls[i]? = some d ∧ d.completed = true ∧ d.response.isSome = true := by
  have hstep : ∀ {n : Network}, σ.network.step c (.complete i .ok fs) = some n →
      ∃ d, n.calls[i]? = some d ∧ d.completed = true ∧ d.response.isSome = true := by
    intro n hn
    cases Network.step_stepped hn with
    | ended _ _ _ b hcall hopen =>
      refine ⟨_, List.getElem?_set_self (List.getElem?_eq_some_iff.mp hcall).1, rfl, ?_⟩
      simpa [Network.canComplete] using (Bool.and_eq_true_iff.mp hopen).2
    | completed _ _ _ b src r hcall hopen =>
      refine ⟨{ b with completed := true }, ?_, rfl, ?_⟩
      · rw [List.getElem?_append_left (by simpa using (List.getElem?_eq_some_iff.mp hcall).1)]
        exact List.getElem?_set_self (List.getElem?_eq_some_iff.mp hcall).1
      · simpa [Network.canComplete] using (Bool.and_eq_true_iff.mp hopen).2
  cases h with
  | asked a calls ha hasks hends => exact absurd rfl (hends i .ok fs)
  | consumed i status fs call request n hcall hsrc hrequest hn =>
    obtain ⟨d, hd, hrest⟩ := hstep hn
    refine ⟨d, ?_, hrest⟩
    rw [send, List.getElem?_append_left (List.getElem?_eq_some_iff.mp hd).1, hd]
  | completed i status fs call n hcall hother hn => exact hstep hn

theorem DecisionSent.step {request : TransferReq} {isCommit : Bool}
    (h : DecisionSent c σ request isCommit)
    (hsame : σ'.processing request.tid = σ.processing request.tid)
    (hlater : ∀ (j : ℕ) (d : Call), σ.network.calls[j]? = some d →
      ∃ d', σ'.network.calls[j]? = some d' ∧ Network.Later d d')
    (hold : ∀ (j : ℕ) (d' : Call) isCommit', σ'.network.calls[j]? = some d' →
      d'.request = .decision isCommit' ⟨request.tid⟩ →
        ∃ d, σ.network.calls[j]? = some d ∧ Network.Later d d') :
    DecisionSent c σ' request isCommit where
  closed := hsame.trans h.closed
  all := by
    intro id hid
    obtain ⟨j, d, hj, hsrc, hdst, hreq⟩ := h.all id hid
    obtain ⟨d', hj', hl⟩ := hlater j d hj
    exact ⟨j, d', hj', hl.src.trans hsrc, hl.dst.trans hdst, hl.request.trans hreq⟩
  only := by
    intro j d' isCommit' hj' hreq
    obtain ⟨d, hj, hl⟩ := hold j d' isCommit' hj' hreq
    rw [hl.dst]
    exact h.only j d isCommit' hj (hl.request.symm.trans hreq)
  once := by
    intro j j' d d' isCommit' isCommit'' hj hj' hreq hreq' hdst
    obtain ⟨e, he, hl⟩ := hold j d isCommit' hj hreq
    obtain ⟨e', he', hl'⟩ := hold j' d' isCommit'' hj' hreq'
    rw [hl.dst, hl'.dst] at hdst
    exact h.once j j' e e' isCommit' isCommit'' he he' (hl.request.symm.trans hreq)
      (hl'.request.symm.trans hreq') hdst

/-- The prepare calls of a transaction, before a step that issues none. -/
theorem PreparedBy.earlier {i : ℕ} {request : TransferReq} {a' b' : Call}
    (h : PreparedBy σ' i request a' b')
    (hold : ∀ (j : ℕ) (d' : Call) request', σ'.network.calls[j]? = some d' →
      d'.request = .tpcPrepare request' →
        ∃ d, σ.network.calls[j]? = some d ∧ Network.Later d d') :
    ∃ a b, PreparedBy σ i request a b ∧ Network.Later a a' ∧ Network.Later b b' := by
  obtain ⟨a, ha, hl⟩ := hold i a' request h.first h.prepares.1
  obtain ⟨b, hb, hl'⟩ := hold (i + 1) b' request h.second h.prepares.2
  exact ⟨a, b, ⟨ha, hb, ⟨hl.src.symm.trans h.source.1, hl'.src.symm.trans h.source.2⟩,
    ⟨hl.request.symm.trans h.prepares.1, hl'.request.symm.trans h.prepares.2⟩⟩, hl, hl'⟩

theorem Tallied.positive (h : Tallied c as σ) {i : ℕ} {request : TransferReq} {a b : Call}
    (hp : PreparedBy σ i request a b) : 0 < request.tid := by
  obtain ⟨i', a', b', hpair, -⟩ := h.coordinated.pairs i a request hp.first hp.prepares.1
  exact hpair.positive

theorem Tallied.ended_later (h : Tallied c as σ) {i : ℕ} (hok : okEnded as i = true)
    (hlater : ∀ (j : ℕ) (d : Call), σ.network.calls[j]? = some d →
      ∃ d', σ'.network.calls[j]? = some d' ∧ Network.Later d d') :
    ∃ d, σ'.network.calls[i]? = some d ∧ d.completed = true ∧ d.response.isSome = true := by
  obtain ⟨d, hd, hcompleted, hsome⟩ := h.ended i hok
  obtain ⟨d', hd', hl⟩ := hlater i d hd
  obtain ⟨res, hres⟩ := Option.isSome_iff_exists.mp hsome
  exact ⟨d', hd', hl.completed hcompleted, by rw [hl.response res hres]; rfl⟩

/-- A step that counts nothing for one transaction. -/
theorem Tallied.frame (h : Tallied c as σ) (act : Action) {i : ℕ} {request : TransferReq}
    {a b a' b' : Call} (hp : PreparedBy σ i request a b) (ha : Network.Later a a')
    (hb : Network.Later b b') (hnot : act.endsOk i = false) (hnot' : act.endsOk (i + 1) = false)
    (hsame : σ'.processing request.tid = σ.processing request.tid)
    (hlater : ∀ (j : ℕ) (d : Call), σ.network.calls[j]? = some d →
      ∃ d', σ'.network.calls[j]? = some d' ∧ Network.Later d d')
    (hold : ∀ (j : ℕ) (d' : Call) isCommit, σ'.network.calls[j]? = some d' →
      d'.request = .decision isCommit ⟨request.tid⟩ →
        ∃ d, σ.network.calls[j]? = some d ∧ Network.Later d d') :
    CountedAt c (as ++ [act]) σ' i request a' b' := by
  have hok : okEnded (as ++ [act]) i = okEnded as i := by simp [okEnded_snoc, hnot]
  have hok' : okEnded (as ++ [act]) (i + 1) = okEnded as (i + 1) := by simp [okEnded_snoc, hnot']
  have hack : acked (as ++ [act]) i request.tid a' = acked as i request.tid a := by
    rw [← h.acked_later hp.first ha, acked, acked, hok]
  have hack' : acked (as ++ [act]) (i + 1) request.tid b' = acked as (i + 1) request.tid b := by
    rw [← h.acked_later hp.second hb, acked, acked, hok']
  have hcount := h.counts i request a b hp
  constructor
  · intro p hproc
    rw [hok, hok', hack, hack']
    exact hcount.counted p (hsame.symm.trans hproc)
  · intro hproc
    rw [hok, hok', hack, hack']
    obtain ⟨hended, hended', hsent⟩ := hcount.decided (hsame.symm.trans hproc)
    exact ⟨hended, hended', hsent.step hsame hlater hold⟩

/-- An action that counts nothing for an issued transaction and decides none. -/
theorem Tallied.quiet (h : Tallied c as σ) (act : Action)
    (hcoordinated : Coordinated c (as ++ [act]) σ')
    (hends : ∀ i, act.endsOk i = true → (∃ d, σ'.network.calls[i]? = some d ∧ d.completed = true ∧
      d.response.isSome = true) ∧ ∀ d request, σ.network.calls[i]? = some d →
        d.src = none → d.request ≠ .tpcPrepare request)
    (hsame : ∀ tid, 0 < tid → σ'.processing tid = σ.processing tid)
    (hlater : ∀ (j : ℕ) (d : Call), σ.network.calls[j]? = some d →
      ∃ d', σ'.network.calls[j]? = some d' ∧ Network.Later d d')
    (hold : OldDecisions σ σ') : Tallied c (as ++ [act]) σ' where
  coordinated := hcoordinated
  ended := by
    intro i hok
    rw [okEnded_snoc, Bool.or_eq_true] at hok
    rcases hok with hok | hok
    · exact h.ended_later hok hlater
    · exact (hends i hok).1
  counts := by
    intro i request a' b' hp'
    obtain ⟨a, b, hp, ha, hb⟩ := hp'.earlier (σ := σ) fun j d' request' hj hreq => by
      rcases hold j d' hj with hd | ⟨hnot, -⟩
      · exact hd
      · exact absurd hreq (hnot request')
    have hpos := h.positive hp
    refine h.frame act hp ha hb ?_ ?_ (hsame _ hpos) hlater fun j d' isCommit hj hreq => ?_
    · by_contra hne
      exact (hends i (by simpa using hne)).2 a request hp.first hp.source.1 hp.prepares.1
    · by_contra hne
      exact (hends (i + 1) (by simpa using hne)).2 b request hp.second hp.source.2 hp.prepares.2
    · rcases hold j d' hj with hd | ⟨-, hnot⟩
      · exact hd
      · have := hnot isCommit _ hreq
        omega

/-- The client issues a cross-shard transaction. -/
theorem Tallied.cross (h : Tallied c as σ) {t : Transaction} {leaders : List Text}
    {tid leader leader' : ℤ}
    (hcoordinated : Coordinated c (as ++ [Action.processTransaction t leaders tid]) σ')
    (hfresh : ∀ call ∈ σ.network.calls, ∀ request, call.request = .tpcPrepare request →
      request.tid ≠ tid)
    (hnetwork : σ'.network = send σ.network
      [⟨leader, .tpcPrepare ⟨t, tid⟩⟩, ⟨leader', .tpcPrepare ⟨t, tid⟩⟩])
    (hprocessing : σ'.processing = Function.update σ.processing tid (some { txn := t })) :
    Tallied c (as ++ [Action.processTransaction t leaders tid]) σ' := by
  have hlater : ∀ (j : ℕ) (d : Call), σ.network.calls[j]? = some d →
      ∃ d', σ'.network.calls[j]? = some d' ∧ Network.Later d d' := by
    intro j d hj
    refine ⟨d, ?_, .refl d⟩
    rw [hnetwork, send, List.getElem?_append_left (List.getElem?_eq_some_iff.mp hj).1, hj]
  have hcases : ∀ {j : ℕ} {d : Call}, σ'.network.calls[j]? = some d →
      σ.network.calls[j]? = some d ∨ d.request = .tpcPrepare ⟨t, tid⟩ ∧
        (j = σ.network.calls.length ∨ j = σ.network.calls.length + 1) := by
    intro j d hj
    rw [hnetwork] at hj
    rcases getElem?_send hj with hold | ⟨k, o, rfl, ho, rfl⟩
    · exact .inl hold
    · rcases k with _ | _ | k
      · obtain rfl := Option.some.inj ho
        exact .inr ⟨rfl, .inl rfl⟩
      · obtain rfl := Option.some.inj ho
        exact .inr ⟨rfl, .inr rfl⟩
      · cases ho
  have hlost : ∀ {j : ℕ}, σ.network.calls.length ≤ j →
      okEnded (as ++ [Action.processTransaction t leaders tid]) j = false := by
    intro j hj
    by_contra hne
    rw [okEnded_snoc, Bool.not_eq_false, Bool.or_eq_true] at hne
    rcases hne with hok | hok
    · obtain ⟨d, hd, -⟩ := h.ended j hok
      have := (List.getElem?_eq_some_iff.mp hd).1
      omega
    · cases hok
  refine ⟨hcoordinated, ?_, ?_⟩
  · intro i hok
    rw [okEnded_snoc, Bool.or_eq_true] at hok
    rcases hok with hok | hok
    · exact h.ended_later hok hlater
    · cases hok
  · intro i request a b hp
    rcases hcases hp.first with hfirst | ⟨hprep, hi⟩ <;>
      rcases hcases hp.second with hsecond | ⟨hprep', hi'⟩
    · have hold : PreparedBy σ i request a b := ⟨hfirst, hsecond, hp.source, hp.prepares⟩
      have htid := hfresh a (List.mem_of_getElem? hfirst) request hp.prepares.1
      refine h.frame _ hold (.refl a) (.refl b) rfl rfl ?_ hlater fun j d' isCommit hj hreq => ?_
      · rw [hprocessing, Function.update_of_ne htid]
      · rcases hcases hj with hd | ⟨hprep, -⟩
        · exact ⟨d', hd, .refl d'⟩
        · rw [hprep] at hreq
          cases isCommit <;> cases hreq
    · have hreq := hp.prepares.1
      obtain rfl := Request.tpcPrepare.inj (hprep'.symm.trans hp.prepares.2)
      exact absurd rfl (hfresh a (List.mem_of_getElem? hfirst) _ hreq)
    · have := (List.getElem?_eq_some_iff.mp hsecond).1
      omega
    · obtain rfl := Request.tpcPrepare.inj (hprep.symm.trans hp.prepares.1)
      have hset : σ'.processing tid = some { txn := t } := by
        rw [hprocessing, Function.update_self]
      have hno := hlost (show σ.network.calls.length ≤ i by omega)
      have hno' := hlost (show σ.network.calls.length ≤ i + 1 by omega)
      constructor
      · intro p hproc
        obtain rfl := Option.some.inj (hset.symm.trans hproc)
        simp [acked, hno, hno']
      · intro hproc
        rw [hset] at hproc
        cases hproc

theorem Tallied.unique (h : Tallied c as σ) {i i' : ℕ} {request request' : TransferReq}
    {a b a' b' : Call} (hp : PreparedBy σ i request a b) (hp' : PreparedBy σ i' request' a' b')
    (htid : request.tid = request'.tid) : i = i' := by
  have hle := h.coordinated.near (i + 1) i' b a' _ _ hp.second hp'.first hp.prepares.2
    hp'.prepares.1 htid
  have hge := h.coordinated.near (i' + 1) i b' a _ _ hp'.second hp.first hp'.prepares.2
    hp.prepares.1 htid.symm
  omega

/-- An answered prepare call is counted under its own tid. -/
theorem countReply_answer (processing : ℤ → Option TpcPrepareRes) (ack : Bool) (tid : ℤ)
    {p : TpcPrepareRes} (hp : processing tid = some p) :
    countReply processing .ok ⟨ack, tid⟩ =
      ⟨p.txn, p.successes + ack.toNat, p.failures + (!ack).toNat⟩ := by
  unfold countReply
  dsimp only
  rw [hp, Option.getD_some]
  cases ack <;> simp

/-- The first answer to a transaction is counted, the second one decides it. -/
theorem consumeReply_answer (processing : ℤ → Option TpcPrepareRes) (ack : Bool) (tid : ℤ)
    {p : TpcPrepareRes} (hp : processing tid = some p) (hle : p.successes + p.failures ≤ 1) :
    consumeReply c processing .ok ⟨ack, tid⟩ =
      if p.successes + p.failures = 1 then
        (Function.update processing tid none,
          decisionCalls c (p.successes + ack.toNat = 2) tid p.txn)
      else (Function.update processing tid
        (some ⟨p.txn, p.successes + ack.toNat, p.failures + (!ack).toNat⟩), []) := by
  unfold consumeReply
  rw [countReply_answer _ _ _ hp]
  have hack : ack.toNat + (!ack).toNat = 1 := by cases ack <;> rfl
  refine if_congr ?_ rfl rfl
  dsimp only
  omega

theorem Request.decision_inj {isCommit isCommit' : Bool} {r r' : TpcTid}
    (h : Request.decision isCommit r = .decision isCommit' r') : isCommit = isCommit' ∧ r = r' := by
  cases isCommit <;> cases isCommit' <;> cases h <;> exact ⟨rfl, rfl⟩

theorem mem_decisionCalls_iff {isCommit : Bool} {tid : ℤ} {txn : Transaction} {o : OutCall} :
    o ∈ decisionCalls c isCommit tid txn ↔
      Concerns c txn o.dst ∧ o.request = .decision isCommit ⟨tid⟩ := by
  unfold decisionCalls Concerns
  rw [List.mem_map]
  constructor
  · rintro ⟨⟨name, id⟩, hmem, rfl⟩
    obtain ⟨hid, hcluster⟩ := List.mem_filter.mp hmem
    exact ⟨⟨(Constants.mem_serverIds.mp hid).2, of_decide_eq_true hcluster⟩, rfl⟩
  · rintro ⟨⟨hid, hcluster⟩, hreq⟩
    refine ⟨("S".toList ++ decimal o.dst, o.dst), List.mem_filter.mpr
      ⟨Constants.mem_serverIds.mpr ⟨rfl, hid⟩, decide_eq_true hcluster⟩, ?_⟩
    obtain ⟨dst, request⟩ := o
    exact congrArg _ hreq.symm

/-- The client decides a transaction that has no decision yet. -/
theorem decisionSent_send {k : ℕ} {call : Call} {n : Network} {request : TransferReq}
    {isCommit : Bool} (hcall : σ.network.calls[k]? = some call)
    (hcalls : n.calls = σ.network.calls.set k { call with completed := true })
    (hnetwork : σ'.network = send n (decisionCalls c isCommit request.tid request.txn))
    (hclosed : σ'.processing request.tid = none)
    (hnone : ∀ (j : ℕ) (d : Call) isCommit, σ.network.calls[j]? = some d →
      d.request ≠ .decision isCommit ⟨request.tid⟩) : DecisionSent c σ' request isCommit := by
  have hnew : ∀ {j : ℕ} {d : Call} {isCommit' : Bool}, σ'.network.calls[j]? = some d →
      d.request = .decision isCommit' ⟨request.tid⟩ → ∃ l o, j = σ.network.calls.length + l ∧
        (decisionCalls c isCommit request.tid request.txn)[l]? = some o ∧ d.dst = o.dst ∧
        d.request = o.request := by
    intro j d isCommit' hj hreq
    rw [hnetwork] at hj
    rcases getElem?_send_set hcall hcalls hj with ⟨d', hd', hl⟩ | ⟨l, o, hl, ho, rfl⟩
    · exact absurd (hl.request.symm.trans hreq) (hnone j d' isCommit' hd')
    · exact ⟨l, o, hl, ho, rfl, rfl⟩
  refine ⟨hclosed, ?_, ?_, ?_⟩
  · intro id hid
    have hmem : (⟨id, .decision isCommit ⟨request.tid⟩⟩ : OutCall) ∈
        decisionCalls c isCommit request.tid request.txn := mem_decisionCalls_iff.mpr ⟨hid, rfl⟩
    obtain ⟨l, ho⟩ := List.mem_iff_getElem?.mp hmem
    refine ⟨n.calls.length + l, ⟨none, id, .decision isCommit ⟨request.tid⟩, none, false⟩, ?_, rfl,
      rfl, rfl⟩
    rw [hnetwork, send, List.getElem?_append_right (by omega), List.getElem?_map,
      show n.calls.length + l - n.calls.length = l by omega, ho]
    rfl
  · intro j d isCommit' hj hreq
    obtain ⟨l, o, -, ho, hdst, hsame⟩ := hnew hj hreq
    obtain ⟨hconcerns, hrequest⟩ := mem_decisionCalls_iff.mp (List.mem_of_getElem? ho)
    rw [hdst]
    exact ⟨(Request.decision_inj (hreq.symm.trans (hsame.trans hrequest))).1, hconcerns⟩
  · intro j j' d d' isCommit' isCommit'' hj hj' hreq hreq' hd
    obtain ⟨l, o, rfl, ho, hdst, -⟩ := hnew hj hreq
    obtain ⟨l', o', rfl, ho', hdst', -⟩ := hnew hj' hreq'
    rw [decisionCalls_dst ho ho' (hdst.symm.trans (hd.trans hdst'))]

theorem okEnded_complete {k : ℕ} {fs : FileSystem} (j : ℕ) :
    okEnded (as ++ [Action.complete k .ok fs]) j = (okEnded as j || decide (k = j)) := by
  rw [okEnded_snoc]
  rfl

/-- The client consumes the answer of a prepare call that has not ended yet. -/
structure Consumes (c : Constants) (as : List Action) (σ σ' : System) (k : ℕ) (call : Call)
    (request : TransferReq) (ack : Bool) (n : Network) : Prop where
  get : σ.network.calls[k]? = some call
  prepares : call.request = .tpcPrepare request
  answer : call.response = some (.transfer ⟨ack, request.tid⟩)
  calls : n.calls = σ.network.calls.set k { call with completed := true }
  network : σ'.network = send n (consumeReply c σ.processing .ok ⟨ack, request.tid⟩).2
  processing : σ'.processing = (consumeReply c σ.processing .ok ⟨ack, request.tid⟩).1
  fresh : okEnded as k = false

theorem Tallied.consumes (h : Tallied c as σ) {k : ℕ} {fs : FileSystem} {call : Call}
    {request : TransferReq} {n : Network} (hcall : σ.network.calls[k]? = some call)
    (hsrc : call.src = none) (hrequest : call.request = .tpcPrepare request)
    (hstep : σ.network.step c (.complete k .ok fs) = some n)
    (hnetwork : σ'.network = send n (consumeReply c σ.processing .ok (replyOf call .ok)).2)
    (hprocessing : σ'.processing = (consumeReply c σ.processing .ok (replyOf call .ok)).1) :
    ∃ ack, Consumes c as σ σ' k call request ack n := by
  obtain ⟨hcan, hcalls⟩ := complete_client hcall hsrc hstep
  have hopen : call.completed = false := by
    have := (Bool.and_eq_true_iff.mp hcan).1
    simpa using this
  have hnot : okEnded as k = false := by
    by_contra hne
    obtain ⟨d, hd, hcompleted, -⟩ := h.ended k (by simpa using hne)
    obtain rfl := Option.some.inj (hcall.symm.trans hd)
    rw [hopen] at hcompleted
    cases hcompleted
  obtain ⟨ack, hres, hreply⟩ := complete_answer h.coordinated.routed hcall hsrc hrequest hstep
  rw [hreply] at hnetwork hprocessing
  exact ⟨ack, hcall, hrequest, hres, hcalls, hnetwork, hprocessing, hnot⟩

namespace Consumes

variable {k i : ℕ} {fs : FileSystem} {call a b a' b' : Call} {request request' : TransferReq}
  {ack : Bool} {n : Network} {p : TpcPrepareRes}

theorem later (hc : Consumes c as σ σ' k call request ack n) (j : ℕ) (d : Call)
    (hj : σ.network.calls[j]? = some d) :
    ∃ d', σ'.network.calls[j]? = some d' ∧ Network.Later d d' :=
  send_set_later hc.get hc.calls hc.network hj

theorem origin (hc : Consumes c as σ σ' k call request ack n) {j : ℕ} {d' : Call}
    (hj : σ'.network.calls[j]? = some d') :
    (∃ d, σ.network.calls[j]? = some d ∧ Network.Later d d') ∨
      ∃ isCommit, d'.request = .decision isCommit ⟨request.tid⟩ := by
  rw [hc.network] at hj
  rcases getElem?_send_set hc.get hc.calls hj with hold | ⟨l, o, -, ho, rfl⟩
  · exact .inl hold
  · exact .inr (consumeReply_request (List.mem_of_getElem? ho))

/-- The call has ended with its answer. -/
theorem ended (hc : Consumes c as σ σ' k call request ack n) :
    ∃ d, σ'.network.calls[k]? = some d ∧ d.completed = true ∧ d.response.isSome = true := by
  have hlen : k < σ.network.calls.length := (List.getElem?_eq_some_iff.mp hc.get).1
  refine ⟨{ call with completed := true }, ?_, rfl, by rw [hc.answer]; rfl⟩
  rw [hc.network, send, hc.calls, List.getElem?_append_left (by simpa using hlen)]
  exact List.getElem?_set_self hlen

/-- The answer counts for no other transaction. -/
theorem counted_other (hc : Consumes c as σ σ' k call request ack n) (h : Tallied c as σ)
    (hp : PreparedBy σ i request' a b) (ha : Network.Later a a') (hb : Network.Later b b')
    (htid : request'.tid ≠ request.tid) :
    CountedAt c (as ++ [Action.complete k .ok fs]) σ' i request' a' b' := by
  have hother : ∀ {j : ℕ} {d : Call}, σ.network.calls[j]? = some d →
      d.request = .tpcPrepare request' → decide (k = j) = false := by
    intro j d hj hreq
    refine decide_eq_false fun hkj => htid ?_
    subst hkj
    obtain rfl := Option.some.inj (hc.get.symm.trans hj)
    rw [Request.tpcPrepare.inj (hc.prepares.symm.trans hreq)]
  have hsame : σ'.processing request'.tid = σ.processing request'.tid := by
    rw [hc.processing]
    exact consumeReply_of_ne htid
  refine h.frame _ hp ha hb (hother hp.first hp.prepares.1) (hother hp.second hp.prepares.2) hsame
    hc.later fun j d' isCommit hj hreq => ?_
  rcases hc.origin hj with hd | ⟨isCommit', hdecision⟩
  · exact hd
  · rw [hdecision] at hreq
    exact absurd (congrArg TpcTid.tid (Request.decision_inj hreq).2).symm htid

/-- The answer is one more, for the transaction of the call that ends. -/
theorem sums (hc : Consumes c as σ σ' k call request ack n) (h : Tallied c as σ) (fs : FileSystem)
    (hp : PreparedBy σ i request a b) (ha : Network.Later a a') (hb : Network.Later b b')
    (hk : k = i ∨ k = i + 1)
    (hsum : p.successes + p.failures = (okEnded as i).toNat + (okEnded as (i + 1)).toNat)
    (hyes : p.successes =
      (acked as i request.tid a).toNat + (acked as (i + 1) request.tid b).toNat) :
    (okEnded (as ++ [Action.complete k .ok fs]) i).toNat +
        (okEnded (as ++ [Action.complete k .ok fs]) (i + 1)).toNat = p.successes + p.failures + 1 ∧
      (acked (as ++ [Action.complete k .ok fs]) i request.tid a').toNat +
        (acked (as ++ [Action.complete k .ok fs]) (i + 1) request.tid b').toNat =
          p.successes + ack.toNat := by
  have hnow : okEnded (as ++ [Action.complete k .ok fs]) k = true := by simp [okEnded_complete]
  have hown : ∀ {d : Call}, Network.Later call d →
      acked (as ++ [Action.complete k .ok fs]) k request.tid d = ack := by
    intro d hl
    simp [acked, hnow, hl.response _ hc.answer]
  have hkept : ∀ {j : ℕ} {d d' : Call}, k ≠ j → σ.network.calls[j]? = some d →
      Network.Later d d' → okEnded (as ++ [Action.complete k .ok fs]) j = okEnded as j ∧
        acked (as ++ [Action.complete k .ok fs]) j request.tid d' = acked as j request.tid d := by
    intro j d d' hkj hd hl
    have hsame : okEnded (as ++ [Action.complete k .ok fs]) j = okEnded as j := by
      simp [okEnded_complete, hkj]
    refine ⟨hsame, ?_⟩
    rw [← h.acked_later hd hl, acked, acked, hsame]
  have hnone : ∀ d, acked as k request.tid d = false := by
    intro d
    simp [acked, hc.fresh]
  have hnot := hc.fresh
  rcases hk with rfl | rfl
  · obtain rfl := Option.some.inj (hc.get.symm.trans hp.first)
    obtain ⟨hsame, hsame'⟩ := hkept (by omega) hp.second hb
    rw [hsum, hyes, hnow, hown ha, hsame, hsame', hnot, hnone]
    constructor <;> simp <;> omega
  · obtain rfl := Option.some.inj (hc.get.symm.trans hp.second)
    obtain ⟨hsame, hsame'⟩ := hkept (by omega) hp.first ha
    rw [hsum, hyes, hnow, hown hb, hsame, hsame', hnot, hnone]
    constructor <;> simp

/-- A transaction is undecided until both of its answers are consumed. -/
theorem undecided (hc : Consumes c as σ σ' k call request ack n) (h : Tallied c as σ)
    (hp : PreparedBy σ i request a b) (hk : k = i ∨ k = i + 1) :
    ∃ p, σ.processing request.tid = some p := by
  refine Option.ne_none_iff_exists'.mp fun hnone => ?_
  obtain ⟨hended, hended', -⟩ := (h.counts i request a b hp).decided hnone
  have hnot := hc.fresh
  rcases hk with rfl | rfl
  · rw [hnot] at hended
    cases hended
  · rw [hnot] at hended'
    cases hended'

/-- The answer counts for its own transaction, and the second one decides it. -/
theorem counted_own (hc : Consumes c as σ σ' k call request ack n) (h : Tallied c as σ)
    (hp : PreparedBy σ i request a b) (ha : Network.Later a a') (hb : Network.Later b b')
    (hk : k = i ∨ k = i + 1) : CountedAt c (as ++ [Action.complete k .ok fs]) σ' i request a' b' := by
  obtain ⟨p, hproc⟩ := hc.undecided h hp hk
  obtain ⟨htxn, hsum, hle, hyes⟩ := (h.counts i request a b hp).counted p hproc
  obtain ⟨hended, hacked⟩ := hc.sums h fs hp ha hb hk hsum hyes
  have hnetwork := hc.network
  have hprocessing := hc.processing
  rw [consumeReply_answer _ _ _ hproc hle] at hnetwork hprocessing
  by_cases hone : p.successes + p.failures = 1
  · rw [if_pos hone] at hnetwork hprocessing
    have hgone : σ'.processing request.tid = none := by
      rw [hprocessing]
      exact Function.update_self _ _ _
    have hle' := Bool.toNat_le (okEnded (as ++ [Action.complete k .ok fs]) i)
    have hle'' := Bool.toNat_le (okEnded (as ++ [Action.complete k .ok fs]) (i + 1))
    refine ⟨fun q hq => ?_, fun _ => ⟨?_, ?_, ?_⟩⟩
    · rw [hgone] at hq
      cases hq
    · rw [← Bool.toNat_eq_one]
      omega
    · rw [← Bool.toNat_eq_one]
      omega
    · have hcommit : (acked (as ++ [Action.complete k .ok fs]) i request.tid a' &&
          acked (as ++ [Action.complete k .ok fs]) (i + 1) request.tid b') =
            decide (p.successes + ack.toNat = 2) := by
        rw [← hacked]
        cases acked (as ++ [Action.complete k .ok fs]) i request.tid a' <;>
          cases acked (as ++ [Action.complete k .ok fs]) (i + 1) request.tid b' <;> rfl
      rw [hcommit]
      rw [htxn] at hnetwork
      apply decisionSent_send hc.get hc.calls hnetwork hgone
      intro j d isCommit hj hreq
      obtain ⟨-, -, -, -, -, -, hclosed, -⟩ :=
        h.coordinated.decisions j d isCommit _ hj hreq (h.positive hp)
      rw [hproc] at hclosed
      cases hclosed
  · rw [if_neg hone] at hnetwork hprocessing
    have hset : σ'.processing request.tid =
        some ⟨p.txn, p.successes + ack.toNat, p.failures + (!ack).toNat⟩ := by
      rw [hprocessing]
      exact Function.update_self _ _ _
    have hack : ack.toNat + (!ack).toNat = 1 := by cases ack <;> rfl
    refine ⟨fun q hq => ?_, fun hq => ?_⟩
    · obtain rfl := Option.some.inj (hset.symm.trans hq)
      refine ⟨htxn, ?_, ?_, hacked.symm⟩
      · rw [hended]
        dsimp only
        omega
      · dsimp only
        omega
    · rw [hset] at hq
      cases hq

end Consumes

theorem Tallied.consumed (h : Tallied c as σ) {k : ℕ} {fs : FileSystem} {call : Call}
    {request : TransferReq} {ack : Bool} {n : Network}
    (hc : Consumes c as σ σ' k call request ack n)
    (hcoordinated : Coordinated c (as ++ [Action.complete k .ok fs]) σ') :
    Tallied c (as ++ [Action.complete k .ok fs]) σ' where
  coordinated := hcoordinated
  ended := by
    intro j hj
    rw [okEnded_complete, Bool.or_eq_true] at hj
    rcases hj with hj | hj
    · exact h.ended_later hj hc.later
    · obtain rfl := of_decide_eq_true hj
      exact hc.ended
  counts := by
    intro i request' a' b' hp'
    obtain ⟨a, b, hp, ha, hb⟩ := hp'.earlier (σ := σ) fun j d' request'' hj hreq => by
      rcases hc.origin hj with hd | ⟨isCommit, hdecision⟩
      · exact hd
      · rw [hdecision] at hreq
        cases isCommit <;> cases hreq
    by_cases htid : request'.tid = request.tid
    · obtain ⟨i', d, d', hpair, hk⟩ := h.coordinated.pairs k call request hc.get hc.prepares
      obtain rfl := h.unique hp hpair.preparedBy htid
      obtain rfl := Option.some.inj (hp.first.symm.trans hpair.preparedBy.first)
      obtain rfl := Request.tpcPrepare.inj (hp.prepares.1.symm.trans hpair.preparedBy.prepares.1)
      exact hc.counted_own h hp ha hb hk
    · exact hc.counted_other h hp ha hb htid

theorem Tallied.step (h : Tallied c as σ) (hstep : Stepped c σ act σ')
    (hfresh : FreshTid c σ act) : Tallied c (as ++ [act]) σ' := by
  have hcoordinated := h.coordinated.step hstep hfresh
  have hlater : ∀ (j : ℕ) (d : Call), σ.network.calls[j]? = some d →
      ∃ d', σ'.network.calls[j]? = some d' ∧ Network.Later d d' :=
    fun j d hj => hstep.later hj
  have hends : ∀ i, act.endsOk i = true → ∃ fs, act = .complete i .ok fs := by
    intro i hi
    cases act with
    | complete j status fs =>
      cases status <;> simp [Action.endsOk] at hi
      exact ⟨fs, by rw [hi]⟩
    | _ => cases hi
  cases hstep with
  | intra t leaders tid leader hsame hleader =>
    refine h.quiet _ hcoordinated nofun (fun _ _ => rfl) hlater (oldDecisions_send rfl ?_)
    intro o ho
    obtain rfl := List.mem_singleton.mp ho
    exact ⟨nofun, fun isCommit _ hreq => by cases isCommit <;> cases hreq⟩
  | cross t leaders tid leader leader' hne hleader hleader' =>
    obtain ⟨hpos, hfresh⟩ := hfresh hne
    refine h.cross hcoordinated (fun call hmem request hreq htid => ?_) rfl rfl
    apply hfresh call hmem
    rw [hreq, ← htid]
    rfl
  | asked act calls ha hasks hnever =>
    refine h.quiet _ hcoordinated (fun i hi => ?_) (fun _ _ => rfl) hlater
      (oldDecisions_send rfl ?_)
    · obtain ⟨fs, rfl⟩ := hends i hi
      exact absurd rfl (hnever i .ok fs)
    · intro o ho
      have hask := (hasks o ho).2
      refine ⟨fun request hreq => ?_, fun isCommit tid hreq => ?_⟩
      · rw [hreq] at hask
        exact hask.elim
      · rw [hreq] at hask
        cases isCommit <;> exact hask.elim
  | delivered i fs n hn =>
    exact h.quiet _ hcoordinated nofun (fun _ _ => rfl) hlater (oldDecisions_step hn nofun)
  | completed i status fs call n hcall hother hn =>
    refine h.quiet _ hcoordinated (fun j hj => ?_) (fun _ _ => rfl) hlater
      (oldDecisions_step hn nofun)
    obtain ⟨fs', heq⟩ := hends j hj
    cases heq
    refine ⟨(Stepped.completed i .ok fs call n hcall hother hn).completes, ?_⟩
    intro d request hd hsrc
    obtain rfl := Option.some.inj (hcall.symm.trans hd)
    exact hother hsrc request
  | consumed i status fs call request n hcall hsrc hrequest hn =>
    by_cases hok : status = .ok
    · subst hok
      obtain ⟨ack, hc⟩ : ∃ ack, Consumes c as σ ⟨_, _⟩ i call request ack n :=
        h.consumes hcall hsrc hrequest hn rfl rfl
      exact h.consumed hc hcoordinated
    · obtain ⟨hsame, hold⟩ := failed_quiet hcall hsrc hok hn (rfl : System.network ⟨_, _⟩ = _) rfl
      refine h.quiet _ hcoordinated (fun j hj => ?_) hsame hlater hold
      obtain ⟨fs', heq⟩ := hends j hj
      cases heq
      exact absurd rfl hok

theorem reaches_tallied {disk : ℤ → Disk}
    (h : Reaches c (fun σ a => FreshTid c σ a) disk as σ) : Tallied c as σ := by
  induction h with
  | refl => exact tallied_init c disk
  | snoc _ hguard hstep ih => exact ih.step (step_stepped hstep) hguard

/-- A cross-shard transaction has its decision, once its prepare calls have ended, exactly if both
have ended with status `OK`. -/
theorem decisionSent_iff {disk : ℤ → Disk}
    (h : Reaches c (fun σ a => FreshTid c σ a) disk as σ) {i j : ℕ} {request : TransferReq}
    {a b : Call} (hij : i < j) (ha : σ.network.calls[i]? = some a)
    (hb : σ.network.calls[j]? = some b) (hreqa : a.request = .tpcPrepare request)
    (hreqb : b.request = .tpcPrepare request) (hended : a.completed = true ∧ b.completed = true) :
    DecisionSent c σ request (acked as i request.tid a && acked as j request.tid b) ↔
      okEnded as i = true ∧ okEnded as j = true := by
  have htallied := reaches_tallied h
  -- the two calls are the pair of the transaction
  obtain ⟨i', a', b', hp, hi⟩ := htallied.coordinated.pairs i a request ha hreqa
  have hnear := htallied.coordinated.near j i b a request request hb ha hreqb hreqa rfl
  have hnear' := htallied.coordinated.near j i' b a' request request hb hp.first hreqb
    hp.prepares.1 rfl
  obtain rfl : i = i' := by omega
  obtain rfl : j = i + 1 := by omega
  obtain rfl := Option.some.inj (hp.first.symm.trans ha)
  obtain rfl := Option.some.inj (hp.second.symm.trans hb)
  have hcount := htallied.counts i request a' b' hp.preparedBy
  constructor
  · intro hsent
    obtain ⟨hok, hok', -⟩ := hcount.decided hsent.closed
    exact ⟨hok, hok'⟩
  · rintro ⟨hok, hok'⟩
    refine (hcount.decided ?_).2.2
    by_contra hne
    obtain ⟨p, hproc⟩ := Option.ne_none_iff_exists'.mp hne
    obtain ⟨-, hsum, hle, -⟩ := hcount.counted p hproc
    rw [hok, hok'] at hsum
    simp only [Bool.toNat_true] at hsum
    omega

theorem decisionSent_committedRun :
    ∃ σ, run (step .standard) (init .standard fun _ => .empty) committedRun = some σ ∧
      DecisionSent .standard σ ⟨⟨1, 1001, 3⟩, 7⟩ true := by
  obtain ⟨σ, hσ, hcheck⟩ := (Option.any_eq_true _ _).mp
    (show (runIf (step .standard) (FreshTid .standard) (init .standard fun _ => .empty)
      committedRun).any (fun σ => (σ.network.calls[0]?.any fun a =>
        decide (a.request = .tpcPrepare ⟨⟨1, 1001, 3⟩, 7⟩ ∧ a.completed = true ∧
          acked committedRun 0 7 a = true)) && σ.network.calls[1]?.any fun b =>
        decide (b.request = .tpcPrepare ⟨⟨1, 1001, 3⟩, 7⟩ ∧ b.completed = true ∧
          acked committedRun 1 7 b = true)) = true by decide +kernel)
  obtain ⟨hfirst, hsecond⟩ := Bool.and_eq_true_iff.mp hcheck
  obtain ⟨a, ha, hfirst⟩ := (Option.any_eq_true _ _).mp hfirst
  obtain ⟨b, hb, hsecond⟩ := (Option.any_eq_true _ _).mp hsecond
  obtain ⟨hreqa, hended, hacked⟩ := of_decide_eq_true hfirst
  obtain ⟨hreqb, hended', hacked'⟩ := of_decide_eq_true hsecond
  have hfresh := runs_of_runIf hσ
  have hsent := (decisionSent_iff hfresh (by omega) ha hb hreqa hreqb ⟨hended, hended'⟩).mpr
    ⟨by decide, by decide⟩
  rw [hacked, hacked'] at hsent
  exact ⟨σ, hfresh.run_eq, hsent⟩

/-- Server 1 prepares a transaction, and the prepare call to server 4 ends with an error. -/
def timedOutRun : List Action :=
  [.processTransaction ⟨1, 1001, 3⟩ ["S1".toList, "S4".toList, "S7".toList] 7, .arrives 0,
    .arrives 2, .returns 2, .arrives 0, .arrives 4, .returns 4, .arrives 0, .returns 0,
    .complete 1 .otherError .allOpen]

theorem not_decisionSent_timedOutRun :
    ∃ σ a b, Reaches .standard (fun σ a => FreshTid .standard σ a) (fun _ => .empty) timedOutRun σ ∧
      σ.network.calls[0]? = some a ∧ σ.network.calls[1]? = some b ∧
      a.request = .tpcPrepare ⟨⟨1, 1001, 3⟩, 7⟩ ∧ b.request = .tpcPrepare ⟨⟨1, 1001, 3⟩, 7⟩ ∧
      a.completed = true ∧ b.completed = true ∧
      (∀ d ∈ σ.network.calls, ∀ isCommit, d.request ≠ .decision isCommit ⟨7⟩) ∧
      1 ∈ (σ.network.servers 1).locks ∧
      ¬ DecisionSent .standard σ ⟨⟨1, 1001, 3⟩, 7⟩
        (acked timedOutRun 0 7 a && acked timedOutRun 1 7 b) := by
  obtain ⟨σ, hσ, hcheck⟩ := (Option.any_eq_true _ _).mp
    (show (runIf (step .standard) (FreshTid .standard) (init .standard fun _ => .empty)
      timedOutRun).any (fun σ => (σ.network.calls[0]?.any fun a =>
        decide (a.request = .tpcPrepare ⟨⟨1, 1001, 3⟩, 7⟩ ∧ a.completed = true)) &&
        (σ.network.calls[1]?.any fun b =>
        decide (b.request = .tpcPrepare ⟨⟨1, 1001, 3⟩, 7⟩ ∧ b.completed = true)) &&
        decide ((∀ d ∈ σ.network.calls, ∀ isCommit, d.request ≠ .decision isCommit ⟨7⟩) ∧
          1 ∈ (σ.network.servers 1).locks ∧ σ.processing 7 ≠ none)) = true by decide +kernel)
  obtain ⟨hcalls, hcheck⟩ := Bool.and_eq_true_iff.mp hcheck
  obtain ⟨hfirst, hsecond⟩ := Bool.and_eq_true_iff.mp hcalls
  obtain ⟨a, ha, hfirst⟩ := (Option.any_eq_true _ _).mp hfirst
  obtain ⟨b, hb, hsecond⟩ := (Option.any_eq_true _ _).mp hsecond
  obtain ⟨hreqa, hended⟩ := of_decide_eq_true hfirst
  obtain ⟨hreqb, hended'⟩ := of_decide_eq_true hsecond
  obtain ⟨hnone, hlocks, hopen⟩ := of_decide_eq_true hcheck
  exact ⟨σ, a, b, runs_of_runIf hσ, ha, hb, hreqa, hreqb, hended, hended', hnone, hlocks,
    fun hsent => hopen hsent.closed⟩

end System
end TpcBank
