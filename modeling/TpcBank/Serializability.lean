import TpcBank.Tracking

/-! Serializability: with one leader in every cluster, the transactions that the bank commits
are, in the order in which they commit, a run of a bank that executes one transaction after the
other. A transfer inside a cluster commits when its leader applies it, a cross-shard transaction
when the client decides it. -/
namespace TpcBank
open Decimal Transition Ledger Reservation

namespace System

variable {c : Constants} {L : Leaders c} {as : List Action} {σ σ' : System} {a : Action}
  {past : List TransferReq} {bank : ℤ → ℤ}

/-- The transaction that an action commits: a Transfer that its server acknowledges, or a
cross-shard transaction that the client decides to commit. -/
def committed (c : Constants) (σ : System) : Action → Option TransferReq
  | .deliver i fs => do
      let call ← σ.network.calls[i]?
      match call.request with
      | .transfer r =>
          if ((σ.network.servers call.dst).proceed c fs call.request).response =
            Server.transferRes true r.tid then some r else none
      | _ => none
  | .complete i status _ => do
      let call ← σ.network.calls[i]?
      match call.src, call.request with
      | none, .tpcPrepare _ =>
          let reply := replyOf call status
          let p := countReply σ.processing status reply
          if status = .ok ∧ p.successes = 2 then some ⟨p.txn, reply.tid⟩ else none
      | _, _ => none
  | _ => none

/-- The transactions that a run commits, in order. -/
def history (c : Constants) (disk : ℤ → Disk) (as : List Action) : List TransferReq :=
  observe (step c) (committed c) (init c disk) as

/-- A transfer is committed when it has been acknowledged, a cross-shard transaction when the
client has sent the decision. -/
def Committed (σ : System) (r : TransferReq) : Prop :=
  (∃ dst, σ.network.Answered none dst (.transfer r) (.transfer ⟨true, r.tid⟩)) ∨
    (∃ dst, σ.network.Sent none dst (.tpcPrepare r)) ∧ σ.network.Decided true r.tid

/-- Every client starts with ten. -/
def opening (x : ℤ) : ℤ := if 1 ≤ x ∧ x ≤ totalClients then 10 else 0

/-- The committed transactions of a run, as a run of the bank that executes one transaction
after the other. -/
structure Serialized (L : Leaders c) (σ : System) (past : List TransferReq) (bank : ℤ → ℤ) :
    Prop where
  executed : run post opening (past.map TransferReq.posting) = some bank
  tracked : ∀ k, 1 ≤ k → k ≤ c.numClusters → Network.Tracked L σ.network bank k
  members : ∀ r, r ∈ past ↔ σ.Committed r
  distinct : (past.map TransferReq.tid).Nodup

theorem serialized_init (L : Leaders c) (disk : ℤ → Disk) :
    Serialized L (init c disk) [] opening where
  executed := rfl
  tracked := by
    intro k hlow hhigh
    constructor
    · rintro r ⟨⟨e, he, -⟩, -⟩
      cases he
    · intro x hx _
      have hin : c.isClientInCluster x (c.getClusterIdFromServerId (L.leader k)) = true := by
        rw [L.member k hlow hhigh]
        exact decide_eq_true hx
      show opening x = if _ then 10 else 0
      simp only [opening, hin, and_true]
  members := by
    intro r
    refine iff_of_false List.not_mem_nil ?_
    rintro (⟨dst, call, hmem, -⟩ | ⟨⟨dst, call, hmem, -⟩, -⟩) <;> cases hmem
  distinct := List.nodup_nil

/-- No transaction commits. -/
theorem Serialized.quiet (h : Serialized L σ past bank)
    (htracked : ∀ k, 1 ≤ k → k ≤ c.numClusters → Network.Tracked L σ'.network bank k)
    (hmembers : ∀ r, σ'.Committed r ↔ σ.Committed r) : Serialized L σ' past bank where
  executed := h.executed
  tracked := htracked
  members := fun r => (h.members r).trans (hmembers r).symm
  distinct := h.distinct

/-- A transaction commits that the bank covers. -/
theorem Serialized.commit (h : Serialized L σ past bank) {request : TransferReq}
    (hcover : request.posting.amount ≤ bank request.posting.source)
    (htracked : ∀ k, 1 ≤ k → k ≤ c.numClusters →
      Network.Tracked L σ'.network (fun x => bank x + request.posting.effect x) k)
    (hmembers : ∀ r, σ'.Committed r ↔ σ.Committed r ∨ r = request)
    (hfresh : ∀ r, σ.Committed r → r.tid ≠ request.tid) :
    Serialized L σ' (past ++ [request]) fun x => bank x + request.posting.effect x where
  executed := by
    rw [List.map_append, run_append, h.executed]
    exact congrArg (fun b => b.bind some) (post_of_covered hcover)
  tracked := htracked
  members := by
    intro r
    rw [List.mem_append, List.mem_singleton, h.members r, hmembers r]
  distinct := by
    rw [List.map_append, List.nodup_append]
    refine ⟨h.distinct, List.nodup_singleton _, ?_⟩
    rintro tid htid tid' htid' rfl
    obtain ⟨r, hr, rfl⟩ := List.mem_map.mp htid
    exact hfresh r ((h.members r).mp hr) (List.mem_singleton.mp htid')

/-! ### The client sends -/

theorem answered_send {n : Network} {calls : List OutCall} {src : Option ℤ} {dst : ℤ}
    {request : Request} {response : Response} :
    (send n calls).Answered src dst request response ↔ n.Answered src dst request response := by
  constructor
  · rintro ⟨call, hmem, hsrc, hdst, hrequest, hresponse⟩
    rcases List.mem_append.mp hmem with hold | hnew
    · exact ⟨call, hold, hsrc, hdst, hrequest, hresponse⟩
    · obtain ⟨o, -, rfl⟩ := List.mem_map.mp hnew
      cases hresponse
  · rintro ⟨call, hmem, hcall⟩
    exact ⟨call, List.mem_append_left _ hmem, hcall⟩

theorem decided_send {n : Network} {calls : List OutCall} {isCommit : Bool} {tid : ℤ} :
    (send n calls).Decided isCommit tid ↔
      n.Decided isCommit tid ∨ ∃ o ∈ calls, o.request = .decision isCommit ⟨tid⟩ := by
  constructor
  · rintro ⟨dst, hs⟩
    rcases sent_send hs with hold | hnew
    · exact .inl ⟨dst, hold⟩
    · exact .inr ⟨_, hnew, rfl⟩
  · rintro (⟨dst, hs⟩ | ⟨o, ho, hrequest⟩)
    · exact ⟨dst, sent_send_of n calls hs⟩
    · exact ⟨o.dst, ⟨none, o.dst, o.request, none, false⟩,
        List.mem_append_right _ (List.mem_map.mpr ⟨o, ho, rfl⟩), rfl, rfl, hrequest⟩

/-- The client asks something or issues a transaction that has no decision. -/
theorem Serialized.sends (h : Serialized L σ past bank) {calls : List OutCall}
    (hnetwork : σ'.network = send σ.network calls)
    (hno : ∀ o ∈ calls, ∀ r, o.request ≠ .decision true r)
    (hprepare : ∀ o ∈ calls, ∀ r, o.request = .tpcPrepare r → ¬ σ.network.Decided true r.tid) :
    Serialized L σ' past bank := by
  have hdecided : ∀ tid, σ'.network.Decided true tid ↔ σ.network.Decided true tid := by
    intro tid
    rw [hnetwork, decided_send]
    refine or_iff_left ?_
    rintro ⟨o, ho, hrequest⟩
    exact hno o ho _ hrequest
  refine h.quiet (fun k hlow hhigh => ?_) fun r => ?_
  · exact Network.Tracked.sends (h.tracked k hlow hhigh) (by rw [hnetwork]; rfl)
      fun tid _ _ => hdecided tid
  · unfold Committed
    rw [hdecided, hnetwork]
    simp only [answered_send]
    refine or_congr_right (and_congr_left fun hdec => ⟨?_, ?_⟩)
    · rintro ⟨dst, hs⟩
      rcases sent_send hs with hold | hnew
      · exact ⟨dst, hold⟩
      · exact absurd hdec (hprepare _ hnew r rfl)
    · rintro ⟨dst, hs⟩
      exact ⟨dst, sent_send_of _ _ hs⟩

/-! ### A server acts -/

/-- A prepare call that has not been answered is of a transaction that is not decided. -/
theorem Sole.undecided (h : Sole L as σ) {i : ℕ} {call : Call} {request : TransferReq}
    (hcall : σ.network.calls[i]? = some call) (hnew : call.response = none)
    (hrequest : call.request = .tpcPrepare request) : ¬ σ.network.Decided true request.tid := by
  rintro ⟨dst, d, hmem, -, -, hreq⟩
  have hcoord := h.banked.coordinated
  obtain ⟨j, hj⟩ := List.mem_iff_getElem?.mp hmem
  obtain ⟨i', a, b, hp, hi⟩ := hcoord.pairs i call request hcall hrequest
  obtain ⟨i'', request', a', b', hp', htid, -, hyes⟩ :=
    hcoord.decisions j d true request.tid hj hreq hp.positive
  obtain ⟨rfl, rfl, rfl⟩ := hcoord.pair_unique hp hp' htid.symm
  obtain ⟨ha, hb⟩ := hyes rfl
  rcases hi with rfl | rfl
  · obtain rfl := Option.some.inj (hcall.symm.trans hp.first)
    rw [hnew] at ha
    cases ha
  · obtain rfl := Option.some.inj (hcall.symm.trans hp.second)
    rw [hnew] at hb
    cases hb

/-- No transaction has both decisions. -/
theorem Sole.once (h : Sole L as σ) {tid : ℤ} (hpos : 0 < tid)
    (habort : σ.network.Decided false tid) : ¬ σ.network.Decided true tid := by
  rintro ⟨dst, d, hmem, -, -, hreq⟩
  obtain ⟨dst', d', hmem', -, -, hreq'⟩ := habort
  obtain ⟨j, hj⟩ := List.mem_iff_getElem?.mp hmem
  obtain ⟨j', hj'⟩ := List.mem_iff_getElem?.mp hmem'
  have hsame := (h.banked.coordinated.once j j' d d' true false tid hpos hj hj' hreq hreq').1
  cases hsame

theorem Sole.timed (h : Sole L as σ) : σ.network.Timed :=
  fun dst x r hs => (h.banked.proper dst x r hs).1

/-- What a leader has prepared has a positive tid. -/
theorem Sole.positive (h : Sole L as σ) {k : ℤ} (hlow : 1 ≤ k) (hhigh : k ≤ c.numClusters)
    {tid : ℤ} {w : WALEntry}
    (hw : (σ.network.servers (L.leader k)).wal.pending tid = some w) : 0 < tid := by
  have hcluster := L.member k hlow hhigh
  obtain ⟨dst, -, hs⟩ := h.banked.provenance.pending (L.leader k) (by omega) tid w hw
  exact h.timed dst true _ hs

/-- A server acts without committing a transfer. -/
theorem Sole.tracked_step (h : Sole L as σ) {n : Network} {e : Event} {k : ℤ} (hlow : 1 ≤ k)
    (hhigh : k ≤ c.numClusters) (htracked : Network.Tracked L σ.network bank k)
    (hstep : Network.Stepped c σ.network e n) (he : ∀ dst request, e ≠ .call dst request)
    (hworking : e.working) (hsync : Network.Each (Server.NoEntries L) σ.network e)
    {fs : FileSystem} {input : Input} {r : Handled}
    (hacts : Network.Acts σ.network e (L.leader k) fs input)
    (hr : (σ.network.servers (L.leader k)).Acted c fs input r)
    (hserver : n.servers (L.leader k) = r.server)
    (hno : ∀ request, input = .request (.transfer request) →
      r.response ≠ Server.transferRes true request.tid) : Network.Tracked L n bank k := by
  obtain ⟨book, hfits, hled⟩ := h.exists_book
  have hprov := h.banked.provenance
  refine Network.Tracked.handled htracked hled hprov hlow hhigh hstep he hacts hserver
    (hled.effect hfits hprov hacts hr (L.leads hlow hhigh) hworking hsync) hno ?_ ?_
  · intro request hinput
    generalize L.leader k = p at hacts
    cases hacts with
    | deliver hcall hnew => exact h.undecided hcall hnew (Input.request.inj hinput)
    | complete => cases hinput
  · intro tid w hw habort
    exact h.once (h.positive hlow hhigh hw) habort

theorem committed_deliver {i : ℕ} (fs : FileSystem) {call : Call}
    (hcall : σ.network.calls[i]? = some call) (r : TransferReq) :
    committed c σ (.deliver i fs) = some r ↔ call.request = .transfer r ∧
      ((σ.network.servers call.dst).proceed c fs call.request).response =
        Server.transferRes true r.tid := by
  simp only [committed, hcall, Option.bind_eq_bind, Option.bind_some]
  cases hrequest : call.request with
  | transfer request =>
    simp only [Option.ite_none_right_eq_some, Option.some.injEq, Request.transfer.injEq]
    constructor
    · rintro ⟨hres, rfl⟩
      exact ⟨rfl, hres⟩
    · rintro ⟨rfl, hres⟩
      exact ⟨hres, rfl⟩
  | _ => simp

/-- A committed transaction is no other one than that of an unanswered Transfer. -/
theorem Sole.fresh_transfer (h : Sole L as σ) {i : ℕ} {call : Call} {request r : TransferReq}
    (hcall : σ.network.calls[i]? = some call) (hnew : call.response = none)
    (hrequest : call.request = .transfer request) (hr : σ.Committed r) : r.tid ≠ request.tid := by
  intro htid
  have hpolled : call.request.polled = some request := by rw [hrequest]; rfl
  rcases hr with ⟨dst, d, hmem, -, -, hreq, hres⟩ | ⟨⟨dst, d, hmem, -, -, hreq⟩, -⟩
  · obtain ⟨j, hj⟩ := List.mem_iff_getElem?.mp hmem
    obtain ⟨-, hplace⟩ := h.polls.single j i d call r request hj hcall (by rw [hreq]; rfl) hpolled htid
    obtain rfl := hplace hreq
    obtain rfl := Option.some.inj (hj.symm.trans hcall)
    rw [hnew] at hres
    cases hres
  · obtain ⟨j, hj⟩ := List.mem_iff_getElem?.mp hmem
    obtain ⟨hsame, -⟩ := h.polls.single j i d call r request hj hcall (by rw [hreq]; rfl) hpolled htid
    rw [hreq, hrequest] at hsame
    cases hsame

/-- The committed transactions after a request is handled. -/
theorem Sole.committed_deliver_iff (h : Sole L as σ) {i : ℕ} {fs : FileSystem} {call : Call}
    {n : Network} (hcall : σ.network.calls[i]? = some call) (hnew : call.response = none)
    (hn : n = σ.network.deliver c i fs call) (hstep : Network.Stepped c σ.network (.deliver i fs) n)
    (hnetwork : σ'.network = n) (r : TransferReq) :
    σ'.Committed r ↔ σ.Committed r ∨ committed c σ (.deliver i fs) = some r := by
  have hsrc : call.request = .transfer r → call.src = none := by
    intro hrequest
    exact h.banked.provenance.routed.src_of_fromClient
      ⟨call, List.mem_of_getElem? hcall, rfl, rfl, hrequest⟩ rfl
  have hsent : ∀ {dst : ℤ} {request : Request}, n.Sent none dst request ↔
      σ.network.Sent none dst request := by
    intro dst request
    constructor
    · intro hs
      rcases hstep.client_before hs with hold | ⟨heq, -⟩
      · exact hold
      · cases heq
    · exact fun hs => hs.step hstep
  unfold Committed Network.Decided
  rw [hnetwork, committed_deliver fs hcall]
  simp only [hsent]
  rw [hn]
  simp only [Network.answered_deliver hcall hnew]
  constructor
  · rintro (⟨dst, hold | ⟨-, -, hrequest, hres⟩⟩ | hdecided)
    · exact .inl (.inl ⟨dst, hold⟩)
    · exact .inr ⟨hrequest, hres⟩
    · exact .inl (.inr hdecided)
  · rintro ((⟨dst, hold⟩ | hdecided) | ⟨hrequest, hres⟩)
    · exact .inl ⟨dst, .inl hold⟩
    · exact .inr hdecided
    · exact .inl ⟨call.dst, .inr ⟨hsrc hrequest, rfl, hrequest, hres⟩⟩

/-- A request is handled. -/
theorem Sole.deliver (h : Sole L as σ) (hser : Serialized L σ past bank) {i : ℕ} {fs : FileSystem}
    {n : Network} (hn : σ.network.step c (.deliver i fs) = some n) (hworking : fs.working)
    (hnetwork : σ'.network = n) :
    ∃ bank', Serialized L σ' (past ++ (committed c σ (.deliver i fs)).toList) bank' := by
  have hstep := Network.step_stepped hn
  obtain ⟨call, hcall, hnew, heq⟩ := Network.deliver_of_step hn
  have hacts : Network.Acts σ.network (.deliver i fs) call.dst fs (.request call.request) :=
    .deliver hcall hnew
  have hr : (σ.network.servers call.dst).Acted c fs (.request call.request)
      ((σ.network.servers call.dst).proceed c fs call.request) :=
    Server.react_acted (.request call.request)
  have hmembers := h.committed_deliver_iff hcall hnew heq hstep hnetwork
  have hself : n.servers call.dst =
      ((σ.network.servers call.dst).proceed c fs call.request).server := by
    rw [heq]
    exact Function.update_self _ _ _
  have hother : ∀ x, x ≠ call.dst → n.servers x = σ.network.servers x := by
    intro x hx
    rw [heq]
    exact Function.update_of_ne hx _ _
  cases hcommitted : committed c σ (.deliver i fs) with
  | none =>
    rw [hcommitted] at hmembers
    rw [Option.toList_none, List.append_nil]
    refine ⟨bank, hser.quiet (fun k hlow hhigh => ?_) fun r => (hmembers r).trans (by simp)⟩
    rw [hnetwork]
    by_cases hk : L.leader k = call.dst
    · rw [← hk] at hacts hr hself
      refine h.tracked_step hlow hhigh (hser.tracked k hlow hhigh) hstep nofun hworking
        (each_deliver L _ i fs) hacts hr hself fun request hrequest hres => ?_
      have hsome := (committed_deliver fs hcall request).mpr
        ⟨Input.request.inj hrequest, by rw [← hk]; exact hres⟩
      rw [hcommitted] at hsome
      cases hsome
    · exact Network.Tracked.same (hser.tracked k hlow hhigh) hstep nofun (hother _ hk) fun _ _ => rfl
  | some request =>
    obtain ⟨hrequest, hres⟩ := (committed_deliver fs hcall request).mp hcommitted
    rw [hcommitted] at hmembers
    obtain ⟨book, hfits, hled⟩ := h.exists_book
    have hprov := h.banked.provenance
    obtain ⟨hs, hleads⟩ := hfits.poll hprov hacts false (by rw [hrequest]; rfl)
    obtain ⟨-, -, -, hcluster⟩ := hfits _ false request hs
    have hsame := (hprov.classified _ false request hs).mpr rfl
    have hsender : c.getClusterIdFromClientId request.txn.sender =
        c.getClusterIdFromServerId call.dst := by
      rcases hcluster with hsender | hreceiver
      · exact hsender
      · exact hsame.trans hreceiver
    obtain ⟨-, hclient, -⟩ := h.banked.proper _ false request hs
    obtain ⟨hlow, hhigh⟩ := c.clusterIdFromClientId_mem hclient.1 hclient.2
    rw [hsender] at hlow hhigh
    have hk := hleads.2
    generalize (σ.network.servers call.dst).proceed c fs call.request = r at hr hself hres
    have hsync := each_deliver L σ.network i fs
    have hinput := hled.leaderInput hfits hprov hacts hleads hsync
    have heffect := hled.effect hfits hprov hacts hr hleads hworking hsync
    rw [hres, hrequest] at heffect
    rw [hrequest] at hinput hacts
    rw [← hk] at hacts hself hinput heffect
    obtain ⟨hcover, htracked⟩ := Network.Tracked.commits (hser.tracked _ hlow hhigh) hled hfits
      hprov hlow hhigh hstep nofun hacts hself hinput heffect
    refine ⟨_, hser.commit hcover (fun k hlow' hhigh' => ?_) (fun r => (hmembers r).trans ?_)
      fun r => h.fresh_transfer hcall hnew hrequest⟩
    · rw [hnetwork]
      by_cases hkk : k = c.getClusterIdFromServerId call.dst
      · rw [hkk]
        exact htracked
      · have hne : L.leader k ≠ call.dst := by
          intro heq
          rw [← heq, L.member k hlow' hhigh'] at hkk
          exact hkk rfl
        refine Network.Tracked.same (hser.tracked k hlow' hhigh') hstep nofun (hother _ hne)
          fun x hx => ?_
        -- the clients of the transfer are in the cluster of its leader
        have hout : request.posting.effect x = 0 := by
          apply Network.posting_effect_of_notMem
          constructor
          · rintro rfl
            exact hkk (hx.symm.trans hsender)
          · rintro rfl
            exact hkk (hx.symm.trans (hsame.symm.trans hsender))
        rw [hout, add_zero]
    · rw [Option.some.injEq, eq_comm (a := request)]

/-! ### A call ends -/

/-- The end of a call answers nothing. -/
theorem answered_complete {n n' : Network} {i : ℕ} {status : Status} {fs : FileSystem}
    (hstep : Network.Stepped c n (.complete i status fs) n') {src : Option ℤ} {dst : ℤ}
    {request : Request} {response : Response} :
    n'.Answered src dst request response ↔ n.Answered src dst request response := by
  constructor
  · intro ha
    rcases hstep.answered_before ha with hold | ⟨fs, r, hacts, -⟩
    · exact hold
    · cases hacts
  · exact fun ha => ha.step hstep

theorem sent_complete {n n' : Network} {i : ℕ} {status : Status} {fs : FileSystem}
    (hstep : Network.Stepped c n (.complete i status fs) n') {dst : ℤ} {request : Request} :
    n'.Sent none dst request ↔ n.Sent none dst request := by
  constructor
  · intro hs
    rcases hstep.client_before hs with hold | ⟨heq, -⟩
    · exact hold
    · cases heq
  · exact fun hs => hs.step hstep

/-- A call ends that is no prepare call of the client. -/
theorem Sole.completed (h : Sole L as σ) (hser : Serialized L σ past bank) {i : ℕ}
    {status : Status} {fs : FileSystem} {n : Network}
    (hn : σ.network.step c (.complete i status fs) = some n) (hworking : fs.working)
    (hsync : Network.Each (Server.NoEntries L) σ.network (.complete i status fs))
    (hnetwork : σ'.network = n) : Serialized L σ' past bank := by
  have hstep := Network.step_stepped hn
  refine hser.quiet (fun k hlow hhigh => ?_) fun r => ?_
  · rw [hnetwork]
    cases hstep.changeAt (L.leader k) with
    | same hserver =>
      exact Network.Tracked.same (hser.tracked k hlow hhigh) hstep nofun hserver fun _ _ => rfl
    | handled fs' input r hacts hr hserver =>
      refine h.tracked_step hlow hhigh (hser.tracked k hlow hhigh) hstep nofun hworking hsync hacts
        hr hserver ?_
      intro request hinput
      generalize L.leader k = p at hacts
      cases hacts
      cases hinput
  · unfold Committed Network.Decided
    rw [hnetwork]
    simp only [answered_complete hstep, sent_complete hstep]

/-- What is known when a prepare call of the client ends with an answer: the transaction is
undecided, and if both leaders have agreed, both hold it. -/
structure Decides (L : Leaders c) (σ : System) (request : TransferReq) (p : TpcPrepareRes) :
    Prop where
  txn : p.txn = request.txn
  undecided : ∀ isCommit, ¬ σ.network.Decided isCommit request.tid
  held : p.successes = 2 → ∀ k, c.getClusterIdFromClientId request.txn.sender = k ∨
    c.getClusterIdFromClientId request.txn.receiver = k →
      ∃ e, (σ.network.servers (L.leader k)).wal.pending request.tid = some e ∧ e.txn = request.txn

/-- The end of a call leaves the responses alone. -/
theorem response_set {calls : List Call} {i j : ℕ} {call b b' : Call} (hcall : calls[i]? = some call)
    (hb : calls[j]? = some b)
    (hb' : (calls.set i { call with completed := true })[j]? = some b') :
    b'.response = b.response := by
  rw [List.getElem?_set] at hb'
  by_cases hij : i = j
  · subst hij
    obtain rfl := Option.some.inj (hcall.symm.trans hb)
    have hlen := (List.getElem?_eq_some_iff.mp hcall).1
    rw [if_pos rfl, if_pos hlen] at hb'
    obtain rfl := Option.some.inj hb'
    rfl
  · rw [if_neg hij] at hb'
    obtain rfl := Option.some.inj (hb.symm.trans hb')
    rfl

/-- Both leaders have agreed when the client has counted two successes. -/
theorem Sole.decides (h : Sole L as σ) {i : ℕ} {fs : FileSystem} {call : Call}
    {request : TransferReq} {n : Network} (hcall : σ.network.calls[i]? = some call)
    (hsrc : call.src = none) (hrequest : call.request = .tpcPrepare request)
    (hn : σ.network.step c (.complete i .ok fs) = some n) :
    (replyOf call .ok).tid = request.tid ∧
      Decides L σ request (countReply σ.processing .ok (replyOf call .ok)) := by
  have hcoord := h.banked.coordinated
  have hprov := h.banked.provenance
  obtain ⟨hcan, -⟩ := complete_client hcall hsrc hn
  have hopen : call.completed = false := by
    have := (Bool.and_eq_true_iff.mp hcan).1
    simpa using this
  obtain ⟨i', a, b, hp, hi⟩ := hcoord.pairs i call request hcall hrequest
  obtain ⟨ack, hresponse, hreply⟩ := complete_answer hcoord.routed hcall hsrc hrequest hn
  obtain ⟨p, hproc⟩ := hp.undecided hcall hi hopen
  obtain ⟨a', b', ha', hb', hla, hlb, hended, hagreed⟩ := hp.complete hcall hi hopen
  obtain ⟨htxn, -, hyes⟩ := hp.tally.countReply hproc hresponse hla hlb hended hagreed
  have hundecided : ∀ isCommit, ¬ σ.network.Decided isCommit request.tid := by
    rintro isCommit ⟨dst, d, hmem, -, -, hreq⟩
    obtain ⟨j, hj⟩ := List.mem_iff_getElem?.mp hmem
    obtain ⟨-, -, -, -, -, -, hnone, -⟩ :=
      hcoord.decisions j d isCommit request.tid hj hreq hp.positive
    rw [hproc] at hnone
    cases hnone
  rw [hreply]
  refine ⟨rfl, htxn, hundecided, fun htwo k hk => ?_⟩
  have hla := agreed_le_one request.tid a'
  have hlb := agreed_le_one request.tid b'
  have hyesa := answered_of_agreed (show 1 ≤ agreed request.tid a' by omega)
  have hyesb := answered_of_agreed (show 1 ≤ agreed request.tid b' by omega)
  rw [response_set hcall hp.first ha'] at hyesa
  rw [response_set hcall hp.second hb'] at hyesb
  obtain ⟨leaders, hissued, hsender, hreceiver⟩ := hp.contacted
  obtain ⟨hnamed, hnamed'⟩ := h.named _ hissued
  have hdst : a.dst = L.leader (c.getClusterIdFromClientId request.txn.sender) :=
    Option.some.inj (hsender.symm.trans hnamed)
  have hdst' : b.dst = L.leader (c.getClusterIdFromClientId request.txn.receiver) :=
    Option.some.inj (hreceiver.symm.trans hnamed')
  have hanswered : ∃ src, σ.network.Answered src (L.leader k) (.tpcPrepare request)
      (.transfer ⟨true, request.tid⟩) := by
    rcases hk with rfl | rfl
    · exact ⟨_, a, List.mem_of_getElem? hp.first, rfl, hdst, hp.prepares.1, hyesa⟩
    · exact ⟨_, b, List.mem_of_getElem? hp.second, rfl, hdst', hp.prepares.2, hyesb⟩
  obtain ⟨src, hanswered⟩ := hanswered
  obtain ⟨book, -, hled⟩ := h.exists_book
  rcases hled.yes src _ request hanswered with hpending | ⟨isCommit, hdecided⟩
  · exact hpending
  · exact absurd hdecided (hundecided isCommit)

/-- What the client decides is what it has counted. -/
theorem consumeReply_decision {processing : ℤ → Option TpcPrepareRes} {status : Status}
    {reply : TransferRes} {o : OutCall} (ho : o ∈ (consumeReply c processing status reply).2) :
    o.request = .decision ((countReply processing status reply).successes = 2) ⟨reply.tid⟩ := by
  unfold consumeReply at ho
  dsimp only at ho
  split_ifs at ho
  · exact decisionCalls_request ho
  · cases ho

/-- Two successes are a decision for all servers of the two clusters. -/
theorem consumeReply_commit {processing : ℤ → Option TpcPrepareRes} {status : Status}
    {reply : TransferRes} (htwo : (countReply processing status reply).successes = 2) :
    (consumeReply c processing status reply).2 =
      decisionCalls c true reply.tid (countReply processing status reply).txn := by
  unfold consumeReply
  rw [if_pos (.inl htwo), decide_eq_true htwo]

theorem committed_consumed {i : ℕ} {status : Status} {fs : FileSystem} {call : Call}
    {request : TransferReq} (hcall : σ.network.calls[i]? = some call) (hsrc : call.src = none)
    (hrequest : call.request = .tpcPrepare request) :
    committed c σ (.complete i status fs) =
      if status = .ok ∧ (countReply σ.processing status (replyOf call status)).successes = 2 then
        some ⟨(countReply σ.processing status (replyOf call status)).txn, (replyOf call status).tid⟩
      else none := by
  simp only [committed, hcall, hsrc, hrequest, Option.bind_eq_bind, Option.bind_some]

/-- A server of the cluster of a client of the bank is one that the decisions go to. -/
theorem concerns_leader {t : Transaction} {leaders : List Text} {leader : ℤ}
    (hleader : leaderId c leaders (c.getClusterIdFromClientId t.sender) = some leader)
    (hcluster : c.getClusterIdFromServerId leader = c.getClusterIdFromClientId t.sender) :
    Concerns c t leader := by
  obtain ⟨name, -, hlookup⟩ := Option.bind_eq_some_iff.mp hleader
  obtain ⟨before, after, hservers, -⟩ := List.lookup_eq_some_iff.mp hlookup
  have hmem : (name, leader) ∈ c.serverIds := by simp [hservers]
  exact ⟨(Constants.mem_serverIds.mp hmem).2, .inl hcluster⟩

/-- The client ends one of its calls and sends decisions, those to commit for the tids of
`commits`. -/
structure Concludes (σ σ' : System) (commits : ℤ → Prop) : Prop where
  servers : σ'.network.servers = σ.network.servers
  answered : ∀ src dst q res, σ'.network.Answered src dst q res ↔ σ.network.Answered src dst q res
  prepares : ∀ dst r, σ'.network.Sent none dst (.tpcPrepare r) ↔
    σ.network.Sent none dst (.tpcPrepare r)
  decided : ∀ tid, 0 < tid → (σ'.network.Decided true tid ↔
    σ.network.Decided true tid ∨ commits tid)

theorem servers_complete {n n' : Network} {i : ℕ} {status : Status} {fs : FileSystem} {call : Call}
    (hcall : n.calls[i]? = some call) (hsrc : call.src = none)
    (hstep : Network.Stepped c n (.complete i status fs) n') : n'.servers = n.servers := by
  cases hstep with
  | ended => rfl
  | completed i status fs call' src r hcall' hopen hsome =>
    obtain rfl := Option.some.inj (hcall.symm.trans hcall')
    rw [hsrc] at hsome
    cases hsome

theorem concludes_of_step {n : Network} {calls : List OutCall} {i : ℕ} {status : Status}
    {fs : FileSystem} {call : Call} {commits : ℤ → Prop} (hcall : σ.network.calls[i]? = some call)
    (hsrc : call.src = none) (hstep : Network.Stepped c σ.network (.complete i status fs) n)
    (hnetwork : σ'.network = send n calls)
    (hcalls : ∀ o ∈ calls, ∃ isCommit tid, o.request = .decision isCommit ⟨tid⟩)
    (hcommits : ∀ tid, 0 < tid → ((∃ o ∈ calls, o.request = .decision true ⟨tid⟩) ↔ commits tid)) :
    Concludes σ σ' commits where
  servers := by
    rw [hnetwork]
    show n.servers = σ.network.servers
    exact servers_complete hcall hsrc hstep
  answered := fun src dst q res => by
    rw [hnetwork, answered_send, answered_complete hstep]
  prepares := by
    intro dst r
    rw [hnetwork, ← sent_complete hstep]
    constructor
    · intro hs
      rcases sent_send hs with hold | hnew
      · exact hold
      · obtain ⟨isCommit, tid, hreq⟩ := hcalls _ hnew
        cases isCommit <;> cases hreq
    · exact fun hs => sent_send_of _ _ hs
  decided := by
    intro tid hpos
    rw [hnetwork, decided_send]
    refine or_congr ?_ (hcommits tid hpos)
    unfold Network.Decided
    simp only [sent_complete hstep]

/-- The client does not commit. -/
theorem Concludes.quiet (hc : Concludes σ σ' fun _ => False) (h : Sole L as σ)
    (hser : Serialized L σ past bank) : Serialized L σ' past bank := by
  have hdecided : ∀ tid, 0 < tid → (σ'.network.Decided true tid ↔ σ.network.Decided true tid) := by
    intro tid hpos
    rw [hc.decided tid hpos, or_false]
  refine hser.quiet (fun k hlow hhigh => ?_) fun r => ?_
  · exact Network.Tracked.sends (hser.tracked k hlow hhigh) hc.servers fun tid w hw =>
      hdecided tid (h.positive hlow hhigh hw)
  · unfold Committed
    simp only [hc.prepares, hc.answered]
    refine or_congr_right (and_congr_right ?_)
    rintro ⟨dst, hs⟩
    exact hdecided r.tid (h.timed dst true r hs)

/-- A transaction that the client commits is owed to the leaders that have prepared it. -/
theorem Concludes.owed {request : TransferReq} (hc : Concludes σ σ' fun tid => tid = request.tid)
    (h : Sole L as σ) {k : ℤ} (hlow : 1 ≤ k) (hhigh : k ≤ c.numClusters) (r : TransferReq) :
    σ'.network.Owed (L.leader k) r ↔ σ.network.Owed (L.leader k) r ∨
      r.tid = request.tid ∧ ∃ e, (σ.network.servers (L.leader k)).wal.pending r.tid = some e ∧
        e.txn = r.txn := by
  unfold Network.Owed
  rw [hc.servers]
  constructor
  · rintro ⟨⟨e, he, htxn⟩, hdecided⟩
    rcases (hc.decided _ (h.positive hlow hhigh he)).mp hdecided with hold | htid
    · exact .inl ⟨⟨e, he, htxn⟩, hold⟩
    · exact .inr ⟨htid, e, he, htxn⟩
  · rintro (⟨⟨e, he, htxn⟩, hold⟩ | ⟨htid, e, he, htxn⟩)
    · exact ⟨⟨e, he, htxn⟩, (hc.decided _ (h.positive hlow hhigh he)).mpr (.inl hold)⟩
    · exact ⟨⟨e, he, htxn⟩, (hc.decided _ (h.positive hlow hhigh he)).mpr (.inr htid)⟩

/-- The committed transactions are one more. -/
theorem Concludes.committed {request : TransferReq}
    (hc : Concludes σ σ' fun tid => tid = request.tid) (h : Sole L as σ) {dst : ℤ}
    (hsent : σ.network.Sent none dst (.tpcPrepare request)) (r : TransferReq) :
    σ'.Committed r ↔ σ.Committed r ∨ r = request := by
  obtain ⟨book, hfits, -⟩ := h.exists_book
  unfold Committed
  simp only [hc.prepares, hc.answered]
  constructor
  · rintro (hacked | ⟨⟨dst', hs⟩, hdecided⟩)
    · exact .inl (.inl hacked)
    · rcases (hc.decided r.tid (h.timed dst' true r hs)).mp hdecided with hold | htid
      · exact .inl (.inr ⟨⟨dst', hs⟩, hold⟩)
      · have hbook := (hfits dst' true r hs).1
        rw [htid, (hfits dst true request hsent).1] at hbook
        exact .inr (Request.tpcPrepare.inj hbook).symm
  · rintro ((hacked | ⟨⟨dst', hs⟩, hold⟩) | rfl)
    · exact .inl hacked
    · exact .inr ⟨⟨dst', hs⟩, (hc.decided r.tid (h.timed dst' true r hs)).mpr (.inl hold)⟩
    · exact .inr ⟨⟨dst, hsent⟩, (hc.decided r.tid (h.timed dst true r hsent)).mpr (.inr rfl)⟩

/-- The bank moves the amount of a transaction when the client commits it, and the leaders of
its clusters follow later. -/
theorem Concludes.tracked {request : TransferReq}
    (hc : Concludes σ σ' fun tid => tid = request.tid) (h : Sole L as σ)
    {book : ℤ → Request} (hled : Network.SoleLed c L book σ.network)
    (hbook : book request.tid = .tpcPrepare request)
    (hundecided : ¬ σ.network.Decided true request.tid)
    (hheld : ∀ k, c.getClusterIdFromClientId request.txn.sender = k ∨
      c.getClusterIdFromClientId request.txn.receiver = k →
        ∃ e, (σ.network.servers (L.leader k)).wal.pending request.tid = some e ∧
          e.txn = request.txn) {k : ℤ} (hlow : 1 ≤ k) (hhigh : k ≤ c.numClusters)
    (htracked : Network.Tracked L σ.network bank k) :
    Network.Tracked L σ'.network (fun x => bank x + request.posting.effect x) k := by
  have hrouted := h.banked.provenance.routed
  by_cases hk : c.getClusterIdFromClientId request.txn.sender = k ∨
      c.getClusterIdFromClientId request.txn.receiver = k
  · obtain ⟨e, he, htxn⟩ := hheld k hk
    have hsame : ∀ r, σ'.network.Owed (L.leader k) r ↔
        σ.network.Owed (L.leader k) r ∨ r = request := by
      intro r
      rw [hc.owed h hlow hhigh]
      refine or_congr_right ⟨?_, ?_⟩
      · rintro ⟨htid, e', he', htxn'⟩
        rw [htid, he] at he'
        obtain rfl := Option.some.inj he'
        obtain ⟨txn, tid⟩ := r
        cases request
        simp_all
      · rintro rfl
        exact ⟨rfl, e, he, htxn⟩
    have hgranted : Tracks (Network.clientsIn c k) (fun r => r.posting.effect) _
        (σ'.network.Owed (L.leader k)) _ (fun x => bank x + request.posting.effect x) :=
      Tracks.grant htracked Network.clientsIn_subset (hled.sound hrouted hlow hhigh)
        (fun _ ho => ho.inFlight) (.inl ⟨e, he, htxn⟩) (fun ho => hundecided ho.2) hsame
        (fun _ _ => rfl) fun x hx hout => by
          rw [Network.posting_effect_of_cluster hx hout, add_zero]
    unfold Network.Tracked
    rw [hc.servers]
    exact hgranted
  · rw [not_or] at hk
    refine Tracks.frame htracked Network.clientsIn_subset (fun r => ?_)
      (fun x _ => by rw [hc.servers]) fun x hx => ?_
    · rw [hc.owed h hlow hhigh]
      refine or_iff_left ?_
      rintro ⟨htid, e, he, htxn⟩
      obtain ⟨hbook', hcluster⟩ := hled.concerns hrouted hlow hhigh he
      rw [htid, hbook] at hbook'
      have htxn' : e.txn = request.txn :=
        congrArg TransferReq.txn (Request.tpcPrepare.inj hbook').symm
      rw [htxn'] at hcluster
      exact hcluster.elim hk.1 hk.2
    · have hout : request.posting.effect x = 0 := by
        apply Network.posting_effect_of_notMem
        constructor
        · rintro rfl
          exact hk.1 hx
        · rintro rfl
          exact hk.2 hx
      rw [hout, add_zero]

/-- The client commits a transaction that both leaders hold. -/
theorem Concludes.commit {request : TransferReq} {p : TpcPrepareRes}
    (hc : Concludes σ σ' fun tid => tid = request.tid) (h : Sole L as σ)
    (hser : Serialized L σ past bank) {dst : ℤ}
    (hsent : σ.network.Sent none dst (.tpcPrepare request)) (htwo : p.successes = 2)
    (hdecides : Decides L σ request p) :
    Serialized L σ' (past ++ [request]) fun x => bank x + request.posting.effect x := by
  obtain ⟨book, hfits, hled⟩ := h.exists_book
  obtain ⟨-, hclient, -⟩ := h.banked.proper dst true request hsent
  have hbook : book request.tid = .tpcPrepare request := (hfits dst true request hsent).1
  have hundecided := hdecides.undecided true
  have hheld := hdecides.held htwo
  obtain ⟨hlow, hhigh⟩ := c.clusterIdFromClientId_mem hclient.1 hclient.2
  have hcover := Network.Tracked.covered (hser.tracked _ hlow hhigh) hled
    h.banked.provenance.routed hlow hhigh (.inl (hheld _ (.inl rfl))) (fun ho => hundecided ho.2) rfl
  refine hser.commit hcover (fun k hlow hhigh => hc.tracked h hled hbook hundecided hheld hlow hhigh
    (hser.tracked k hlow hhigh)) (fun r => hc.committed h hsent r) fun r hr htid => ?_
  rcases hr with ⟨dst', ha⟩ | ⟨-, hold⟩
  · have hbook' := (hfits dst' false r ha.sent).1
    rw [htid, hbook] at hbook'
    cases hbook'
  · rw [htid] at hold
    exact hundecided hold

/-- The client consumes the answer to a prepare call. -/
theorem Sole.consumed (h : Sole L as σ) (hser : Serialized L σ past bank) {n : Network} {i : ℕ}
    {status : Status} {fs : FileSystem} {call : Call} {request : TransferReq}
    (hcall : σ.network.calls[i]? = some call) (hsrc : call.src = none)
    (hrequest : call.request = .tpcPrepare request)
    (hn : σ.network.step c (.complete i status fs) = some n)
    (hnetwork : σ'.network = send n (consumeReply c σ.processing status (replyOf call status)).2) :
    ∃ bank', Serialized L σ' (past ++ (committed c σ (.complete i status fs)).toList) bank' := by
  have hstep := Network.step_stepped hn
  have hcalls : ∀ o ∈ (consumeReply c σ.processing status (replyOf call status)).2,
      ∃ isCommit tid, o.request = .decision isCommit ⟨tid⟩ :=
    fun o ho => ⟨_, _, consumeReply_decision ho⟩
  have hsent : σ.network.Sent none call.dst (.tpcPrepare request) :=
    ⟨call, List.mem_of_getElem? hcall, hsrc, rfl, hrequest⟩
  rw [committed_consumed hcall hsrc hrequest]
  split_ifs with hcommits
  · obtain ⟨rfl, htwo⟩ := hcommits
    obtain ⟨htid, hdecides⟩ := h.decides hcall hsrc hrequest hn
    have hnew := consumeReply_commit (c := c) htwo
    rw [htid, hdecides.txn] at hnew ⊢
    rw [hnew] at hnetwork hcalls
    refine ⟨_, Concludes.commit (concludes_of_step hcall hsrc hstep hnetwork hcalls
      fun tid _ => ⟨?_, ?_⟩) h hser hsent htwo hdecides⟩
    · rintro ⟨o, ho, hreq⟩
      rw [decisionCalls_request ho] at hreq
      cases hreq
      rfl
    · rintro rfl
      obtain ⟨i', a, b, hp, -⟩ := h.banked.coordinated.pairs i call request hcall hrequest
      obtain ⟨leaders, hissued, -⟩ := hp.contacted
      obtain ⟨hnamed, -⟩ := h.named _ hissued
      obtain ⟨-, hclient, -⟩ := h.banked.proper _ true request hsent
      obtain ⟨hlow, hhigh⟩ := c.clusterIdFromClientId_mem hclient.1 hclient.2
      have hconcerns := concerns_leader hnamed (L.member _ hlow hhigh)
      exact ⟨⟨_, .decision true ⟨request.tid⟩⟩, mem_decisionCalls_iff.mpr ⟨hconcerns, rfl⟩, rfl⟩
  · rw [Option.toList_none, List.append_nil]
    refine ⟨bank, Concludes.quiet (concludes_of_step hcall hsrc hstep hnetwork hcalls
      fun tid hpos => iff_of_false ?_ id) h hser⟩
    rintro ⟨o, ho, hreq⟩
    rw [consumeReply_decision ho] at hreq
    obtain ⟨htwo, htid⟩ := Request.decision_inj hreq
    by_cases hok : status = .ok
    · exact hcommits ⟨hok, of_decide_eq_true htwo⟩
    · -- a failed call is counted under the tid 0
      rw [replyOf, if_neg hok] at htid
      have := congrArg TpcTid.tid htid
      dsimp only at this
      omega

/-! ### Runs -/

/-- The client issues no transaction that has a decision already. -/
theorem Sole.not_decided (h : Sole L as σ) {tid : ℤ} (hpos : 0 < tid)
    (hunique : ∀ call ∈ σ.network.calls, call.request.polled.map TransferReq.tid ≠ some tid) :
    ¬ σ.network.Decided true tid := by
  rintro ⟨dst, d, hmem, -, -, hreq⟩
  obtain ⟨j, hj⟩ := List.mem_iff_getElem?.mp hmem
  obtain ⟨i, request, a, b, hp, rfl, -⟩ :=
    h.banked.coordinated.decisions j d true tid hj hreq hpos
  apply hunique a (List.mem_of_getElem? hp.first)
  rw [hp.prepares.1]
  rfl

theorem Sole.serialized_step (h : Sole L as σ) (hser : Serialized L σ past bank)
    (hstep : System.step c σ a = some σ') (horderly : Orderly L σ a) :
    ∃ bank', Serialized L σ' (past ++ (committed c σ a).toList) bank' := by
  have hworking := horderly.working
  have hstepped := step_stepped hstep
  have hnone : ∀ {o : Option TransferReq}, o = none → Serialized L σ' past bank →
      ∃ bank', Serialized L σ' (past ++ o.toList) bank' := by
    rintro o rfl hser
    exact ⟨bank, by rwa [Option.toList_none, List.append_nil]⟩
  cases a with
  | processTransaction t leaders tid =>
    refine hnone rfl ?_
    have hfresh := h.not_decided horderly.proper.1 horderly.unique
    cases hstepped with
    | intra t leaders tid leader =>
      refine hser.sends rfl (fun o ho r hreq => ?_) fun o ho r hreq => ?_ <;>
        · obtain rfl := List.mem_singleton.mp ho
          cases hreq
    | cross t leaders tid leader leader' =>
      refine hser.sends rfl (fun o ho r hreq => ?_) fun o ho r hreq => ?_
      · rcases List.mem_pair.mp ho with rfl | rfl <;> cases hreq
      · have hr : r = ⟨t, tid⟩ := by
          rcases List.mem_pair.mp ho with rfl | rfl <;> exact (Request.tpcPrepare.inj hreq).symm
        rw [hr]
        exact hfresh
    | asked _ _ ha => exact absurd rfl (ha t leaders tid)
  | updateDisconnected servers =>
    cases hstep
    refine hnone rfl (hser.sends rfl (fun o ho r hreq => ?_) fun o ho r hreq => ?_) <;>
      · obtain ⟨s, -, rfl⟩ := List.mem_map.mp ho
        cases hreq
  | printBalance clientId =>
    cases hstep
    refine hnone rfl (hser.sends rfl (fun o ho r hreq => ?_) fun o ho r hreq => ?_) <;>
      · obtain ⟨s, -, rfl⟩ := List.mem_map.mp ho
        cases hreq
  | printDatastore =>
    cases hstep
    refine hnone rfl (hser.sends rfl (fun o ho r hreq => ?_) fun o ho r hreq => ?_) <;>
      · obtain ⟨s, -, rfl⟩ := List.mem_map.mp ho
        cases hreq
  | deliver i fs =>
    obtain ⟨n, hn, heq⟩ := Option.bind_eq_some_iff.mp hstep
    cases heq
    exact h.deliver hser hn hworking rfl
  | complete i status fs =>
    cases hstepped with
    | asked _ _ _ _ hends => exact absurd rfl (hends i status fs)
    | consumed i status fs call request n hcall hsrc hrequest hn =>
      exact h.consumed hser hcall hsrc hrequest hn rfl
    | completed i status fs call n hcall hother hn =>
      refine hnone ?_ (h.completed hser hn hworking horderly.unsynced rfl)
      simp only [committed, hcall, Option.bind_eq_bind, Option.bind_some]
      split
      · exact absurd ‹_› (hother ‹_› _)
      · rfl

/-- The bank that executes the committed transactions one after the other. -/
theorem exists_serialized (L : Leaders c) {disk : ℤ → Disk}
    (h : Reaches c (fun σ a => Orderly L σ a) disk as σ) :
    ∃ bank, Serialized L σ (history c disk as) bank := by
  induction h with
  | refl => exact ⟨opening, serialized_init L disk⟩
  | @snoc as σ σ' a hrun horderly hstep ih =>
    obtain ⟨bank, hser⟩ := ih
    obtain ⟨bank', hser'⟩ := (reaches_sole L hrun).serialized_step hser hstep horderly
    refine ⟨bank', ?_⟩
    rw [history, hrun.observe_snoc]
    exact hser'

/-- What is committed has been issued. -/
theorem Committed.sent {r : TransferReq} (h : σ.Committed r) :
    ∃ dst isCrossShard, σ.network.Sent none dst (.poll isCrossShard r) := by
  rcases h with ⟨dst, ha⟩ | ⟨⟨dst, hs⟩, -⟩
  · exact ⟨dst, false, ha.sent⟩
  · exact ⟨dst, true, hs⟩

/-- The postings of the committed transactions are between clients, and of no negative amounts. -/
theorem Sole.postings (h : Sole L as σ) (hser : Serialized L σ past bank) :
    ∀ p ∈ past.map TransferReq.posting, 0 ≤ p.amount ∧
      p.source ∈ Finset.Icc 1 totalClients ∧ p.target ∈ Finset.Icc 1 totalClients := by
  intro p hp
  obtain ⟨r, hr, rfl⟩ := List.mem_map.mp hp
  obtain ⟨dst, x, hs⟩ := ((hser.members r).mp hr).sent
  obtain ⟨-, hsender, hreceiver⟩ := h.banked.proper dst x r hs
  exact ⟨(h.polls.led dst x r hs).1, Finset.mem_Icc.mpr hsender, Finset.mem_Icc.mpr hreceiver⟩

theorem Sole.bank_nonneg (h : Sole L as σ) (hser : Serialized L σ past bank) (x : ℤ) :
    0 ≤ bank x := by
  refine run_post_nonneg hser.executed (fun p hp => (h.postings hser p hp).1) (fun y => ?_) x
  unfold opening
  split_ifs <;> decide

/-- A transaction that is issued later has not been committed before. -/
theorem not_committed_of_issued {disk : ℤ → Disk} {as₁ as₂ : List Action} {σ₁ σ₂ : System}
    (h : Reaches c (fun σ a => Orderly L σ a) disk (as₁ ++ as₂) σ₂)
    (h₁ : run (step c) (init c disk) as₁ = some σ₁) {r : TransferReq} {leaders : List Text}
    (hissued : .processTransaction r.txn leaders r.tid ∈ as₂) : ¬ σ₁.Committed r := by
  intro hcommitted
  obtain ⟨dst, x, call, hmem, -, -, hrequest⟩ := hcommitted.sent
  obtain ⟨before, after, rfl⟩ := List.append_of_mem hissued
  obtain ⟨σ', hrun, hlast⟩ := Option.bind_eq_some_iff.mp (run_append.symm.trans h.run_eq)
  obtain rfl := Option.some.inj (h₁.symm.trans hrun)
  obtain ⟨σ, hbefore, hafter⟩ := Option.bind_eq_some_iff.mp (run_append.symm.trans hlast)
  obtain ⟨σ'', hissue, -⟩ := Option.bind_eq_some_iff.mp hafter
  have hupto : run (step c) (init c disk) (as₁ ++ before) = some σ := by
    rw [run_append, h₁, Option.bind_some, hbefore]
  have hwhole : Reaches c (fun σ a => Orderly L σ a) disk
      (((as₁ ++ before) ++ [Action.processTransaction r.txn leaders r.tid]) ++ after) σ₂ := by
    simpa using h
  have hall : Reaches c (fun σ a => Orderly L σ a) disk
      ((as₁ ++ before) ++ [Action.processTransaction r.txn leaders r.tid]) σ'' := by
    refine hwhole.of_append ?_
    rw [run_append, hupto, Option.bind_some, run, hissue]
    rfl
  have horderly := (hall.of_snoc (hall.of_append hupto)).2
  -- the call stays in the table until the transaction is issued again
  have hlater : ∃ call' ∈ σ.network.calls, Network.Later call call' := by
    refine (runs_of_run hbefore).invariant
      (I := fun σ => ∃ call' ∈ σ.network.calls, Network.Later call call')
      ⟨call, hmem, .refl call⟩ ?_
    rintro τ a τ' ⟨call', hmem', hl⟩ - hstep
    obtain ⟨j, hj⟩ := List.mem_iff_getElem?.mp hmem'
    obtain ⟨call'', hj', hl'⟩ := (step_stepped hstep).later hj
    exact ⟨call'', List.mem_of_getElem? hj', hl.trans hl'⟩
  obtain ⟨call', hmem', hl⟩ := hlater
  apply horderly.unique call' hmem'
  rw [hl.request, hrequest, Request.polled_poll]
  rfl

/-- The serial order respects real time: a transaction that was committed before another one was
issued comes first. -/
theorem reaches_realTime (L : Leaders c) {disk : ℤ → Disk} {as₁ as₂ : List Action}
    {σ₁ σ₂ : System} (h : Reaches c (fun σ a => Orderly L σ a) disk (as₁ ++ as₂) σ₂)
    (h₁ : run (step c) (init c disk) as₁ = some σ₁) (r r' : TransferReq) {leaders : List Text}
    (hr : σ₁.Committed r) (hissued : .processTransaction r'.txn leaders r'.tid ∈ as₂)
    (hr' : σ₂.Committed r') : [r, r'].Sublist (history c disk (as₁ ++ as₂)) := by
  obtain ⟨bank₁, hser₁⟩ := exists_serialized L (h.of_append h₁)
  obtain ⟨bank₂, hser₂⟩ := exists_serialized L h
  have happend : history c disk (as₁ ++ as₂) =
      history c disk as₁ ++ observe (step c) (committed c) σ₁ as₂ := observe_append h₁ as₂
  have hfirst := (hser₁.members r).mpr hr
  have hsecond := (hser₂.members r').mpr hr'
  rw [happend, List.mem_append] at hsecond
  have hlast : r' ∈ observe (step c) (committed c) σ₁ as₂ := by
    refine hsecond.resolve_left fun hmem => ?_
    exact not_committed_of_issued h h₁ hissued ((hser₁.members r').mp hmem)
  rw [happend]
  exact (List.singleton_sublist.mpr hfirst).append (List.singleton_sublist.mpr hlast)

theorem reaches_realTime_serialRun :
    [(⟨⟨1, 1001, 3⟩, 7⟩ : TransferReq), ⟨⟨2, 3, 4⟩, 8⟩].Sublist
      (history .standard (fun _ => .empty) serialRun) := by
  obtain ⟨σ, hσ, hanswered⟩ := serialRun_reaches
  obtain ⟨σ₁, h₁, hcommitted⟩ := (Option.any_eq_true _ _).mp
    (show (run (step .standard) (init .standard fun _ => .empty) committedRun).any
      (fun σ => decide ((∃ call ∈ σ.network.calls, call.src = none ∧ call.dst = 1 ∧
        call.request = .tpcPrepare ⟨⟨1, 1001, 3⟩, 7⟩) ∧ ∃ call ∈ σ.network.calls,
          call.src = none ∧ call.dst = 1 ∧ call.request = .tpcCommit ⟨7⟩)) = true by decide +kernel)
  obtain ⟨hsent, hdecided⟩ := of_decide_eq_true hcommitted
  exact reaches_realTime firstServers hσ h₁ ⟨⟨1, 1001, 3⟩, 7⟩ ⟨⟨2, 3, 4⟩, 8⟩
    (.inr ⟨⟨1, hsent⟩, 1, hdecided⟩) List.mem_cons_self (.inl ⟨1, hanswered⟩)

/-! ### Settled balances -/

/-- No decision to commit is on its way to a leader that has prepared the transaction. -/
def Settled (L : Leaders c) (σ : System) : Prop :=
  ∀ k, 1 ≤ k → k ≤ c.numClusters → ∀ r, ¬ σ.network.Owed (L.leader k) r

end System
end TpcBank
