import TpcBank.Conservation
import TpcBank.Decisions
import TpcBank.LoneLeader
import TpcBank.Rejections

/-! The bank when the client names one leader for every cluster throughout, and no leader takes
entries from a peer: each leader is then the only proposer of its cluster, and a leader that
has answered a prepare with `ack = true` holds the transaction until the client decides it. -/
namespace TpcBank
open Transition

theorem Request.poll_of_polled {q : Request} {r : TransferReq} (h : q.polled = some r) :
    ∃ isCrossShard, q = .poll isCrossShard r := by
  cases q with
  | tpcPrepare => exact ⟨true, by cases h; rfl⟩
  | transfer => exact ⟨false, by cases h; rfl⟩
  | _ => cases h

/-- One server of every cluster. -/
structure Leaders (c : Constants) where
  leader : ℤ → ℤ
  member : ∀ k, 1 ≤ k → k ≤ c.numClusters → c.getClusterIdFromServerId (leader k) = k

/-- The server is the leader of its cluster. -/
def Leaders.Leads {c : Constants} (L : Leaders c) (p : ℤ) : Prop :=
  0 < c.getClusterIdFromServerId p ∧ L.leader (c.getClusterIdFromServerId p) = p

theorem Leaders.leads {c : Constants} (L : Leaders c) {k : ℤ} (hlow : 1 ≤ k)
    (hhigh : k ≤ c.numClusters) : L.Leads (L.leader k) := by
  unfold Leads
  rw [L.member k hlow hhigh]
  exact ⟨hlow, rfl⟩

namespace Server

variable {c : Constants} {fs : FileSystem} {s : Server} {input : Input} {r : Handled}
  {book : ℤ → Request}

/-- No leader gets entries from a peer. -/
def NoEntries (L : Leaders c) (s : Server) (_ : FileSystem) : Input → Prop
  | .reply (.sync _) .ok response => L.leader s.clusterId = s.serverId → response.toSync.logs = []
  | _ => True

instance (L : Leaders c) (s : Server) (fs : FileSystem) (input : Input) :
    Decidable (s.NoEntries L fs input) := by
  unfold NoEntries
  split <;> infer_instance

/-- What a lone leader gets: an input that it handles, or a failed Sync. -/
def LeaderInput (c : Constants) (clusterId : ℤ) (input : Input) : Prop :=
  LoneInput c clusterId input ∨
    ∃ request status response, input = .reply (.sync request) status response ∧ status ≠ .ok

/-- A handler of a lone leader, by what it does to the undecided transactions and the balances.
Only one that commits a Transfer acknowledges one. -/
inductive LeaderEffect (c : Constants) (s : Server) :
    Input → Option Response → (ℤ → Option WALEntry) → (ℤ → ℤ) → Prop
  | kept (input : Input) (response : Option Response)
      (hno : ∀ request, input = .request (.transfer request) →
        response ≠ transferRes true request.tid) :
      LeaderEffect c s input response s.wal.pending s.balances
  | prepared (request : TransferReq) :
      LeaderEffect c s (.request (.tpcPrepare request)) none
        (Function.update s.wal.pending request.tid (some (preparedEntry request s.promisedNum)))
        s.balances
  | committed (request : TransferReq) (hcommits : s.Commits request) :
      LeaderEffect c s (.request (.transfer request)) (transferRes true request.tid) s.wal.pending
        (movedBalances s.balances request.txn)
  | decided (isCommit : Bool) (request : TpcTid) (response : Option Response) (e : WALEntry)
      (hpending : s.wal.pending request.tid = some e) :
      LeaderEffect c s (.request (.decision isCommit request)) response
        (Function.update s.wal.pending request.tid none)
        (if isCommit then clusterBalances c s.clusterId s.balances e.txn else s.balances)

theorem transferRes_ne (tid tid' : ℤ) : transferRes false tid ≠ transferRes true tid' := by
  simp [transferRes]

theorem processTpcDecision_leaderEffect (hcluster : 0 < s.clusterId) (hfs : fs.working)
    (hindex : s.wal.Indexed) (isCommit : Bool) (request : TpcTid) :
    LeaderEffect c s (.request (.decision isCommit request)) (some .empty)
      (s.processTpcDecision c fs request isCommit).wal.pending
      (s.processTpcDecision c fs request isCommit).balances := by
  have hno : ∀ request', Input.request (.decision isCommit request) = .request (.transfer request') →
      (some Response.empty) ≠ transferRes true request'.tid := by
    intro request' h
    cases isCommit <;> cases h
  by_cases hconn : s.iAmDisconnected = true
  · rw [processTpcDecision_disconnected request isCommit hconn]
    exact .kept _ _ hno
  cases hp : s.wal.pending request.tid with
  | none =>
    rw [processTpcDecision_unknown isCommit hcluster hindex hp]
    exact .kept _ _ hno
  | some e =>
    obtain ⟨wal, -, hpending, heq⟩ := processTpcDecision_found (c := c) isCommit
      (by simpa using hconn) hfs hindex hp
    have hled : LeaderEffect c s _ (some .empty) _ _ := .decided isCommit request (some .empty) e hp
    rw [← hpending] at hled
    rw [heq]
    cases isCommit <;> exact hled

/-- The handlers of a lone leader. -/
theorem Acted.leaderEffect (h : Acted c fs s input r) (hinput : LeaderInput c s.clusterId input)
    (hcluster : 0 < s.clusterId) (hfs : fs.working) (hindex : s.wal.Indexed) :
    LeaderEffect c s input r.response r.server.wal.pending r.server.balances := by
  cases h with
  | idle input response hplain =>
    refine .kept _ _ ?_
    rintro request rfl hres
    cases hplain _ hres
  | accepting isCrossShard request d hown hprep hmaj hcond hd =>
    subst hd
    cases isCrossShard with
    | false => exact .kept _ _ nofun
    | true =>
      have hled : LeaderEffect c s _ none _ s.balances := .prepared request
      have hpending : (s.wal.prepareTransaction fs request s.promisedNum).1.pending =
          Function.update s.wal.pending request.tid (some (preparedEntry request s.promisedNum)) :=
        (WAL.prepareTransaction_spec (hfs 0) hindex request s.promisedNum).2
      rw [← hpending] at hled
      exact hled
  | committed request d hown hprep hacc hmaj hd =>
    subst hd
    obtain ⟨-, hpending, hentry⟩ := WAL.commitTransaction_spec (hfs 0) hindex request s.acceptNum
    have hled : LeaderEffect c s _ _ _ _ := .committed request ⟨hown, hprep, hacc, hmaj⟩
    rw [← hpending] at hled
    rw [commitTransaction_eq]
    simp only [data_balances, data_wal, hentry]
    exact hled
  | rejected => exact .kept _ _ fun _ _ => transferRes_ne _ _
  | failed => exact .kept _ _ fun _ _ => transferRes_ne _ _
  | finished => exact .kept _ _ nofun
  | accepted =>
    rcases hinput with hinput | ⟨_, _, _, heq, -⟩
    · exact hinput.elim
    · cases heq
  | released =>
    rcases hinput with hinput | ⟨_, _, _, heq, -⟩
    · exact hinput.elim
    · cases heq
  | decided isCommit request d locks hconn hd =>
    subst hd
    exact processTpcDecision_leaderEffect hcluster hfs hindex isCommit request
  | synced request response d hack hd =>
    subst hd
    rcases hinput with hinput | ⟨_, _, _, heq, hne⟩
    · have hnone : response.logs = [] := hinput
      rw [hnone, syncEntries_nil]
      exact .kept _ _ nofun
    · cases heq
      exact absurd rfl hne
  | _ => exact .kept _ _ nofun

/-- A lone leader keeps its invariant. -/
theorem Acted.lone_leader (h : Acted c fs s input r) (hlone : s.Lone c book)
    (hinput : LeaderInput c s.clusterId input) (hcluster : 0 < s.clusterId) (hfs : fs.working)
    (hbook : ∀ q request, input = .request q → q.polled = some request → book request.tid = q) :
    r.server.Lone c book := by
  rcases hinput with hinput | ⟨request, status, response, rfl, hne⟩
  · exact h.lone hlone hcluster hfs hinput hbook
  · have hphases := h.phases hlone.phases
    cases h with
    | idle => exact hlone
    | synced => exact absurd rfl hne
    | syncRefused =>
      exact hlone.frame hphases rfl rfl rfl rfl fun hawait => ⟨hawait, rfl, rfl⟩

/-- A leader that awaits accept replies did so before, or has just begun with the request of
the poll, which a prepare has prepared. -/
theorem Acted.awaits (h : Acted c fs s input r) (hinput : LeaderInput c s.clusterId input)
    (hfs : fs.working) (hindex : s.wal.Indexed) (hafter : r.server.awaitAcceptDecision = true) :
    (s.awaitAcceptDecision = true ∧ r.server.acceptVal = s.acceptVal) ∨
      ∃ isCrossShard, input = .request (.poll isCrossShard r.server.acceptVal) ∧
        (isCrossShard = true → ∃ e, r.server.wal.pending r.server.acceptVal.tid = some e ∧
          e.txn = r.server.acceptVal.txn) := by
  cases h with
  | accepting isCrossShard request d hown hprep hmaj hcond hd =>
    subst hd
    refine .inr ⟨isCrossShard, rfl, ?_⟩
    rintro rfl
    have hpending := (WAL.prepareTransaction_spec (hfs 0) hindex request s.promisedNum).2
    refine ⟨preparedEntry request s.promisedNum, ?_, rfl⟩
    exact (congrFun hpending request.tid).trans (Function.update_self _ _ _)
  | accepted =>
    rcases hinput with hinput | ⟨_, _, _, heq, -⟩
    · exact hinput.elim
    · cases heq
  | finished => cases hafter
  | committed => cases hafter
  | failed => cases hafter
  | _ => exact .inl ⟨hafter, rfl⟩

/-- Only the end of an accept phase answers a prepare with `ack = true`. -/
theorem Acted.acknowledges (h : Acted c fs s input r) {request : TransferReq}
    (hinput : input = .request (.tpcPrepare request))
    (hres : r.response = transferRes true request.tid) : s.Commits request := by
  have hpoll : ∀ {x : Bool} {request' : TransferReq}, Input.request (.poll x request') =
      .request (.tpcPrepare request) → request' = request := by
    intro x request' heq
    have hpolled := congrArg Request.polled (Input.request.inj heq)
    rw [Request.polled_poll] at hpolled
    exact Option.some.inj hpolled
  cases h with
  | idle input response hplain =>
    subst hinput
    cases hplain _ hres
  | finished request' hown hprep hacc hmaj =>
    obtain rfl := hpoll (x := true) hinput
    exact ⟨hown, hprep, hacc, hmaj⟩
  | rejected => exact absurd hres (transferRes_ne _ _)
  | failed => exact absurd hres (transferRes_ne _ _)
  | opened => cases hres
  | accepting => cases hres
  | decided isCommit => cases isCommit <;> cases hinput
  | _ => cases hinput

end Server

namespace Network

variable {c : Constants} {L : Leaders c} {book : ℤ → Request} {n n' : Network} {e : Event}
  {p : ℤ} {fs : FileSystem} {input : Input} {r : Handled}

/-- The polls that the client sent: each goes to the leader of a cluster of its transaction,
with an amount that is not negative, and `book` tells them by their tids. -/
def Fits (c : Constants) (L : Leaders c) (book : ℤ → Request) (n : Network) : Prop :=
  ∀ dst isCrossShard r, n.Sent none dst (.poll isCrossShard r) →
    book r.tid = .poll isCrossShard r ∧ 0 ≤ r.txn.amount ∧ L.Leads dst ∧
      (c.getClusterIdFromClientId r.txn.sender = c.getClusterIdFromServerId dst ∨
        c.getClusterIdFromClientId r.txn.receiver = c.getClusterIdFromServerId dst)

theorem Fits.before (h : Fits c L book n') (hstep : Stepped c n e n') : Fits c L book n :=
  fun dst x r hs => h dst x r (hs.step hstep)

/-- A server holds a transaction: it has prepared it, unless the client has decided it. -/
def Held (n : Network) (p : ℤ) (r : TransferReq) : Prop :=
  (∃ e, (n.servers p).wal.pending r.tid = some e ∧ e.txn = r.txn) ∨
    ∃ isCommit, n.Decided isCommit r.tid

/-- The leaders are the only proposers, and what they have answered they hold. -/
structure SoleLed (c : Constants) (L : Leaders c) (book : ℤ → Request) (n : Network) : Prop where
  proposals : ∀ p dst q, n.Sent (some p) dst (.accept q) → L.Leads p
  commits : ∀ p dst q, n.Sent (some p) dst (.commit q) → L.Leads p
  lone : ∀ p, L.Leads p → (n.servers p).Lone c book
  ready : ∀ p, L.Leads p → (n.servers p).awaitAcceptDecision = true →
    book (n.servers p).acceptVal.tid = .tpcPrepare (n.servers p).acceptVal →
      n.Held p (n.servers p).acceptVal
  yes : ∀ src p r, n.Answered src p (.tpcPrepare r) (.transfer ⟨true, r.tid⟩) → n.Held p r

theorem soleLed_init (c : Constants) (L : Leaders c) (book : ℤ → Request) (disk : ℤ → Disk) :
    SoleLed c L book (init c disk) where
  proposals := by
    rintro p dst q ⟨call, hmem, -⟩
    cases hmem
  commits := by
    rintro p dst q ⟨call, hmem, -⟩
    cases hmem
  lone := fun p _ => Server.lone_init c book p (disk p)
  ready := by
    intro p _ hawait
    cases hawait
  yes := by
    rintro src p r ⟨call, hmem, -⟩
    cases hmem

/-- A poll is from the client, so it goes to a leader. -/
theorem Fits.poll (h : Fits c L book n) (hprov : Provenance c n) (hacts : Acts n e p fs input)
    (isCrossShard : Bool) {request : TransferReq}
    (hinput : input = .request (.poll isCrossShard request)) :
    n.Sent none p (.poll isCrossShard request) ∧ L.Leads p := by
  subst hinput
  obtain ⟨src, hs⟩ := hacts.request_sent
  obtain rfl := hprov.routed.src_of_fromClient hs (by cases isCrossShard <;> rfl)
  exact ⟨hs, (h p isCrossShard request hs).2.2.1⟩

theorem Fits.booked (h : Fits c L book n) (hprov : Provenance c n) (hacts : Acts n e p fs input)
    (q : Request) (request : TransferReq) (hinput : input = .request q)
    (hpolled : q.polled = some request) : book request.tid = q := by
  obtain ⟨x, rfl⟩ := Request.poll_of_polled hpolled
  exact (h p x request (h.poll hprov hacts x hinput).1).1

/-- A leader gets no Accept and no Commit, since only leaders send them and only to their own
cluster. -/
theorem SoleLed.not_peer (hleads : L.Leads p) {p' : ℤ} (hleads' : L.Leads p')
    (hpeer : p ∈ c.peers p') : False := by
  obtain ⟨-, hne, hcluster⟩ := Constants.mem_peers.mp hpeer
  apply hne
  rw [← hleads.2, ← hleads'.2, hcluster]

theorem SoleLed.leaderInput (h : SoleLed c L book n) (hfits : Fits c L book n)
    (hprov : Provenance c n) (hacts : Acts n e p fs input) (hleads : L.Leads p)
    (hsync : Each (Server.NoEntries L) n e) :
    Server.LeaderInput c (n.servers p).clusterId input := by
  rw [hprov.routed.clusterId]
  cases input with
  | request q =>
    left
    cases q with
    | transfer request =>
      obtain ⟨hs, -⟩ := hfits.poll hprov hacts false rfl
      obtain ⟨-, hamount, -, hcluster⟩ := hfits p false request hs
      have hsame := (hprov.classified p false request hs).mpr rfl
      refine ⟨hamount, ?_, ?_⟩
      · rcases hcluster with hsender | hreceiver
        · exact hsender
        · exact hsame.trans hreceiver
      · rcases hcluster with hsender | hreceiver
        · exact hsame.symm.trans hsender
        · exact hreceiver
    | tpcPrepare request =>
      obtain ⟨hs, -⟩ := hfits.poll hprov hacts true rfl
      obtain ⟨-, hamount, -, hcluster⟩ := hfits p true request hs
      have hne : c.getClusterIdFromClientId request.txn.sender ≠
          c.getClusterIdFromClientId request.txn.receiver := by
        intro hsame
        have hfalse := (hprov.classified p true request hs).mp hsame
        cases hfalse
      refine ⟨hamount, fun hiff => hne ?_⟩
      rcases hcluster with hsender | hreceiver
      · exact hsender.trans (hiff.mp hsender).symm
      · exact (hiff.mpr hreceiver).trans hreceiver.symm
    | accept q =>
      obtain ⟨src, hs⟩ := hacts.request_sent
      obtain ⟨p', rfl, hpeer⟩ := hprov.routed.accept hs
      exact (SoleLed.not_peer hleads (h.proposals p' p q hs) hpeer).elim
    | commit q =>
      obtain ⟨src, hs⟩ := hacts.request_sent
      obtain ⟨p', rfl, hpeer⟩ := hprov.routed.commit hs
      exact (SoleLed.not_peer hleads (h.commits p' p q hs) hpeer).elim
    | _ => trivial
  | reply q status response =>
    cases q with
    | sync q =>
      by_cases hok : status = .ok
      · subst hok
        left
        have hnone := hsync.acts hacts
        apply hnone
        rw [hprov.routed.clusterId, hprov.routed.serverId]
        exact hleads.2
      · exact .inr ⟨q, status, response, rfl, hok⟩
    | _ => exact .inl trivial

/-- A leader that acts, with what its handler does. -/
theorem SoleLed.effect (h : SoleLed c L book n) (hfits : Fits c L book n) (hprov : Provenance c n)
    (hacts : Acts n e p fs input) (hr : (n.servers p).Acted c fs input r) (hleads : L.Leads p)
    (hworking : e.working) (hsync : Each (Server.NoEntries L) n e) :
    (n.servers p).LeaderEffect c input r.response r.server.wal.pending r.server.balances := by
  refine hr.leaderEffect (h.leaderInput hfits hprov hacts hleads hsync) ?_
    (hacts.working hworking) (hprov.indexed p)
  rw [hprov.routed.clusterId]
  exact hleads.1

/-- What a leader holds it holds until the decision. -/
theorem Held.step {request : TransferReq} (h : n.Held p request) (hled : SoleLed c L book n)
    (hfits : Fits c L book n) (hprov : Provenance c n) (hstep : Stepped c n e n')
    (hworking : e.working) (hsync : Each (Server.NoEntries L) n e) (hleads : L.Leads p)
    (hbook : book request.tid = .tpcPrepare request) : n'.Held p request := by
  rcases h with ⟨w, hw, htxn⟩ | ⟨isCommit, hdecided⟩
  swap
  · exact .inr ⟨isCommit, hdecided.step hstep⟩
  cases hstep.changeAt p with
  | same hserver =>
    left
    rw [hserver]
    exact ⟨w, hw, htxn⟩
  | handled fs input r hacts hr hserver =>
    have heffect := hled.effect hfits hprov hacts hr hleads hworking hsync
    unfold Held
    rw [hserver]
    generalize r.server.wal.pending = pending, r.server.balances = balances,
      r.response = response at heffect
    cases heffect with
    | kept => exact .inl ⟨w, hw, htxn⟩
    | committed => exact .inl ⟨w, hw, htxn⟩
    | prepared request' =>
      by_cases htid : request.tid = request'.tid
      · have hbook' := hfits.booked hprov hacts _ request' rfl rfl
        rw [← htid, hbook] at hbook'
        obtain rfl := Request.tpcPrepare.inj hbook'
        exact .inl ⟨_, Function.update_self _ _ _, rfl⟩
      · exact .inl ⟨w, by rwa [Function.update_of_ne htid], htxn⟩
    | decided isCommit request' =>
      by_cases htid : request.tid = request'.tid
      · right
        rw [htid]
        exact ⟨isCommit, (hprov.issued_decision hacts rfl).step hstep⟩
      · exact .inl ⟨w, by rwa [Function.update_of_ne htid], htxn⟩

theorem SoleLed.step (h : SoleLed c L book n) (hfits : Fits c L book n') (hprov : Provenance c n)
    (hstep : Stepped c n e n') (hworking : e.working) (hsync : Each (Server.NoEntries L) n e) :
    SoleLed c L book n' := by
  have hold := hfits.before hstep
  have hheld : ∀ {p : ℤ} {request : TransferReq}, n.Held p request → L.Leads p →
      book request.tid = .tpcPrepare request → n'.Held p request :=
    fun hheld hleads => hheld.step h hold hprov hstep hworking hsync hleads
  constructor
  · intro p dst q hs
    rcases hstep.sent_before hs with hs | ⟨fs, input, r, hacts, hr, -, ho⟩
    · exact h.proposals p dst q hs
    · obtain ⟨x, hinput, -⟩ := hr.sent_accept ho
      exact (hold.poll hprov hacts x hinput).2
  · intro p dst q hs
    rcases hstep.sent_before hs with hs | ⟨fs, input, r, hacts, hr, -, ho⟩
    · exact h.commits p dst q hs
    · obtain ⟨x, request, hinput, -⟩ := hr.sent_commit ho
      exact (hold.poll hprov hacts x hinput).2
  · intro p hleads
    cases hstep.changeAt p with
    | same hserver =>
      rw [hserver]
      exact h.lone p hleads
    | handled fs input r hacts hr hserver =>
      rw [hserver]
      refine hr.lone_leader (h.lone p hleads) (h.leaderInput hold hprov hacts hleads hsync) ?_
        (hacts.working hworking) (hold.booked hprov hacts)
      rw [hprov.routed.clusterId]
      exact hleads.1
  · intro p hleads hawait hbook
    cases hstep.changeAt p with
    | same hserver =>
      rw [hserver] at hawait hbook ⊢
      exact hheld (h.ready p hleads hawait hbook) hleads hbook
    | handled fs input r hacts hr hserver =>
      rw [hserver] at hawait hbook ⊢
      have hinput := h.leaderInput hold hprov hacts hleads hsync
      rcases hr.awaits hinput (hacts.working hworking) (hprov.indexed p) hawait with
        ⟨hbefore, hval⟩ | ⟨x, hinput, hprepared⟩
      · rw [hval] at hbook ⊢
        exact hheld (h.ready p hleads hbefore hbook) hleads hbook
      · have hpolled := hold.booked hprov hacts _ _ hinput (Request.polled_poll _ _)
        rw [hbook] at hpolled
        cases x with
        | false => cases hpolled
        | true =>
          left
          rw [hserver]
          exact hprepared rfl
  · intro src p request ha
    have hs : n'.Sent none p (.tpcPrepare request) := by
      have hs := ha.sent
      rwa [(hprov.routed.step hstep).src_of_fromClient hs rfl] at hs
    obtain ⟨hbook, -, hleads, -⟩ := hfits p true request hs
    rcases hstep.answered_before ha with hbefore | ⟨fs, r, hacts, hr, hserver, -, hres⟩
    · exact hheld (h.yes src p request hbefore) hleads hbook
    · obtain ⟨hown, -, hacc, -⟩ := hr.acknowledges rfl hres
      obtain rfl := (h.lone p hleads).polled hbook hown hacc
      exact hheld (h.ready p hleads hacc hbook) hleads hbook

end Network

/-- The client names the leaders of both clusters. -/
def Action.Names {c : Constants} (L : Leaders c) : Action → Prop
  | .processTransaction t leaders _ =>
      System.leaderId c leaders (c.getClusterIdFromClientId t.sender) =
        some (L.leader (c.getClusterIdFromClientId t.sender)) ∧
      System.leaderId c leaders (c.getClusterIdFromClientId t.receiver) =
        some (L.leader (c.getClusterIdFromClientId t.receiver))
  | _ => True

instance {c : Constants} (L : Leaders c) (a : Action) : Decidable (a.Names L) :=
  match a with
  | .processTransaction _ _ _ => inferInstanceAs (Decidable (_ ∧ _))
  | .updateDisconnected _ | .printBalance _ | .printDatastore | .deliver _ _ | .complete _ _ _ =>
    isTrue trivial

/-- No transaction moves a negative amount. -/
def Action.Nonneg : Action → Prop
  | .processTransaction t _ _ => 0 ≤ t.amount
  | _ => True

instance (a : Action) : Decidable a.Nonneg :=
  match a with
  | .processTransaction _ _ _ => inferInstanceAs (Decidable (_ ≤ _))
  | .updateDisconnected _ | .printBalance _ | .printDatastore | .deliver _ _ | .complete _ _ _ =>
    isTrue trivial

namespace System

variable {c : Constants} {L : Leaders c} {as : List Action} {σ σ' : System} {a : Action}

/-- A transaction gets a tid that no other one has. -/
def UniqueTid (σ : System) : Action → Prop
  | .processTransaction _ _ tid =>
      ∀ call ∈ σ.network.calls, call.request.polled.map TransferReq.tid ≠ some tid
  | _ => True

instance (σ : System) (a : Action) : Decidable (UniqueTid σ a) :=
  match a with
  | .processTransaction _ _ _ => inferInstanceAs (Decidable (∀ call ∈ σ.network.calls, _))
  | .updateDisconnected _ | .printBalance _ | .printDatastore | .deliver _ _ | .complete _ _ _ =>
    isTrue trivial

/-- No leader takes entries from a peer in the action. -/
def Unsynced (L : Leaders c) (σ : System) : Action → Prop
  | .complete i status fs => Network.Each (Server.NoEntries L) σ.network (.complete i status fs)
  | _ => True

instance (L : Leaders c) (σ : System) (a : Action) : Decidable (Unsynced L σ a) :=
  match a with
  | .complete i status fs => inferInstanceAs
      (Decidable (Network.Each (Server.NoEntries L) σ.network (.complete i status fs)))
  | .processTransaction _ _ _ | .updateDisconnected _ | .printBalance _ | .printDatastore
  | .deliver _ _ => isTrue trivial

/-- An action of a bank with one leader in every cluster, in which file operations succeed,
amounts are not negative, tids are distinct and no leader takes entries from a peer. -/
structure Orderly (L : Leaders c) (σ : System) (a : Action) : Prop where
  working : a.working
  proper : a.proper
  names : a.Names L
  nonneg : a.Nonneg
  unique : UniqueTid σ a
  unsynced : Unsynced L σ a

theorem Orderly.fresh (h : Orderly L σ a) : FreshTid c σ a := by
  have hunique := h.unique
  have hproper := h.proper
  cases a with
  | processTransaction t leaders tid =>
    refine fun _ => ⟨hproper.1, fun call hcall htid => hunique call hcall ?_⟩
    generalize call.request = request at htid ⊢
    cases request with
    | tpcPrepare r => exact htid
    | _ => cases htid
  | _ => trivial

/-- The polls of the client, told apart by their tids: two polls with one tid are of one
request, and a Transfer is sent once. -/
structure Polls (L : Leaders c) (n : Network) : Prop where
  led : ∀ dst isCrossShard r, n.Sent none dst (.poll isCrossShard r) → 0 ≤ r.txn.amount ∧
    L.Leads dst ∧ (c.getClusterIdFromClientId r.txn.sender = c.getClusterIdFromServerId dst ∨
      c.getClusterIdFromClientId r.txn.receiver = c.getClusterIdFromServerId dst)
  single : ∀ (j j' : ℕ) (d d' : Call) r r', n.calls[j]? = some d → n.calls[j']? = some d' →
    d.request.polled = some r → d'.request.polled = some r' → r.tid = r'.tid →
      d.request = d'.request ∧ (d.request = .transfer r → j = j')

/-- A new poll in the table. -/
structure NewPoll (L : Leaders c) (n : Network) (isCrossShard : Bool) (request : TransferReq)
    (j : ℕ) (d : Call) : Prop where
  poll : d.request = .poll isCrossShard request
  amount : 0 ≤ request.txn.amount
  leads : L.Leads d.dst
  cluster : c.getClusterIdFromClientId request.txn.sender = c.getClusterIdFromServerId d.dst ∨
    c.getClusterIdFromClientId request.txn.receiver = c.getClusterIdFromServerId d.dst
  place : isCrossShard = false → j = n.calls.length
  fresh : ∀ call ∈ n.calls, call.request.polled.map TransferReq.tid ≠ some request.tid

theorem Polls.grow (h : Polls L σ.network) (isCrossShard : Bool) (request : TransferReq)
    (hcases : ∀ (j : ℕ) (d : Call) r, σ'.network.calls[j]? = some d → d.request.polled = some r →
      (∃ b, σ.network.calls[j]? = some b ∧ Network.Later b d) ∨
        NewPoll L σ.network isCrossShard request j d) : Polls L σ'.network where
  led := by
    rintro dst x r ⟨call, hmem, hsrc, rfl, hrequest⟩
    obtain ⟨j, hj⟩ := List.mem_iff_getElem?.mp hmem
    have hpolled : call.request.polled = some r := by rw [hrequest, Request.polled_poll]
    rcases hcases j call r hj hpolled with ⟨b, hb, hlater⟩ | hnew
    · exact h.led call.dst x r ⟨b, List.mem_of_getElem? hb, hlater.src.symm.trans hsrc,
        hlater.dst.symm, hlater.request.symm.trans hrequest⟩
    · rw [hnew.poll, Request.polled_poll] at hpolled
      obtain rfl := Option.some.inj hpolled
      exact ⟨hnew.amount, hnew.leads, hnew.cluster⟩
  single := by
    have hfresh : ∀ {j : ℕ} {d b : Call} {r : TransferReq}, σ.network.calls[j]? = some b →
        Network.Later b d → d.request.polled = some r →
          (∀ call ∈ σ.network.calls, call.request.polled.map TransferReq.tid ≠ some request.tid) →
            r.tid ≠ request.tid := by
      intro j d b r hb hlater hpolled hfresh htid
      apply hfresh b (List.mem_of_getElem? hb)
      rw [← hlater.request, hpolled, ← htid]
      rfl
    have hrequest : ∀ {j : ℕ} {d : Call} {r : TransferReq},
        NewPoll L σ.network isCrossShard request j d → d.request.polled = some r → request = r := by
      intro j d r hnew hpolled
      rw [hnew.poll, Request.polled_poll] at hpolled
      exact Option.some.inj hpolled
    intro j j' d d' r r' hj hj' hpolled hpolled' htid
    rcases hcases j d r hj hpolled with ⟨b, hb, hlater⟩ | hnew <;>
      rcases hcases j' d' r' hj' hpolled' with ⟨b', hb', hlater'⟩ | hnew'
    · rw [hlater.request] at hpolled ⊢
      rw [hlater'.request] at hpolled' ⊢
      exact h.single j j' b b' r r' hb hb' hpolled hpolled' htid
    · obtain rfl := hrequest hnew' hpolled'
      exact absurd htid (hfresh hb hlater hpolled hnew'.fresh)
    · obtain rfl := hrequest hnew hpolled
      exact absurd htid.symm (hfresh hb' hlater' hpolled' hnew.fresh)
    · refine ⟨hnew.poll.trans hnew'.poll.symm, fun htransfer => ?_⟩
      have hintra : isCrossShard = false := by
        cases isCrossShard with
        | false => rfl
        | true =>
          have hprepare : d.request = .tpcPrepare request := hnew.poll
          rw [htransfer] at hprepare
          cases hprepare
      rw [hnew.place hintra, hnew'.place hintra]

/-- The decisions and questions of the client are no polls. -/
theorem not_polled {request : Request} (h : Asks request ∨ ∃ isCommit r, request = .decision isCommit r)
    {r : TransferReq} : request.polled ≠ some r := by
  rcases h with hasks | ⟨isCommit, r', rfl⟩
  · cases request <;> first | exact hasks.elim | nofun
  · cases isCommit <;> nofun

/-- A server acts and the client then asks or decides: no poll is new. -/
theorem Polls.quiet (h : Polls L σ.network) {n : Network} {e : Event} (calls : List OutCall)
    (hstep : Network.Stepped c σ.network e n) (he : ∀ dst request, e ≠ .call dst request)
    (hcalls : ∀ o ∈ calls, Asks o.request ∨ ∃ isCommit r, o.request = .decision isCommit r)
    (hnetwork : σ'.network = send n calls) : Polls L σ'.network := by
  refine h.grow false {} fun j d r hj hpolled => .inl ?_
  rw [hnetwork] at hj
  rcases getElem?_send hj with hold | ⟨k, o, -, ho, rfl⟩
  · rcases hstep.earlier hold with hb | ⟨dst, request, rfl, -⟩ | ⟨-, hserver⟩
    · exact hb
    · exact absurd rfl (he dst request)
    · obtain ⟨x, hx⟩ := Request.poll_of_polled hpolled
      rw [hx] at hserver
      cases x <;> cases hserver
  · exact absurd hpolled (not_polled (hcalls o (List.mem_of_getElem? ho)))

/-- The client sends a poll of a new transaction to the leader of a cluster of it. -/
theorem newPoll_send {n : Network} {calls : List OutCall} {isCrossShard : Bool}
    {request : TransferReq} {l : ℕ} {o : OutCall} {x : ℤ} (ho : calls[l]? = some o)
    (hpoll : o = ⟨L.leader (c.getClusterIdFromClientId x), .poll isCrossShard request⟩)
    (hx : IsClient x) (hclient : x = request.txn.sender ∨ x = request.txn.receiver)
    (hone : isCrossShard = false → calls.length = 1) (hamount : 0 ≤ request.txn.amount)
    (hfresh : ∀ call ∈ n.calls, call.request.polled.map TransferReq.tid ≠ some request.tid) :
    NewPoll L n isCrossShard request (n.calls.length + l) ⟨none, o.dst, o.request, none, false⟩ := by
  obtain ⟨hlow, hhigh⟩ := c.clusterIdFromClientId_mem hx.1 hx.2
  subst hpoll
  refine ⟨rfl, hamount, L.leads hlow hhigh, ?_, fun hintra => ?_, hfresh⟩
  · have hmember := (L.member _ hlow hhigh).symm
    rcases hclient with rfl | rfl
    · exact .inl hmember
    · exact .inr hmember
  · have hlen := (List.getElem?_eq_some_iff.mp ho).1
    rw [hone hintra] at hlen
    omega

theorem Polls.step (h : Polls L σ.network) (hstep : Stepped c σ a σ') (horderly : Orderly L σ a) :
    Polls L σ'.network := by
  have hproper := horderly.proper
  have hnames := horderly.names
  have hnonneg := horderly.nonneg
  have hunique := horderly.unique
  cases hstep with
  | intra t leaders tid leader hsame hleader =>
    have hdst := Option.some.inj (hleader.symm.trans hnames.1)
    refine h.grow false ⟨t, tid⟩ fun j d r hj _ => ?_
    rcases getElem?_send hj with hold | ⟨l, o, rfl, ho, rfl⟩
    · exact .inl ⟨d, hold, .refl d⟩
    · right
      refine newPoll_send ho ?_ hproper.2.1 (.inl rfl) (fun _ => rfl) hnonneg hunique
      rw [List.mem_singleton.mp (List.mem_of_getElem? ho), hdst]
      rfl
  | cross t leaders tid leader leader' hne hleader hleader' =>
    have hdst := Option.some.inj (hleader.symm.trans hnames.1)
    have hdst' := Option.some.inj (hleader'.symm.trans hnames.2)
    refine h.grow true ⟨t, tid⟩ fun j d r hj _ => ?_
    rcases getElem?_send hj with hold | ⟨l, o, rfl, ho, rfl⟩
    · exact .inl ⟨d, hold, .refl d⟩
    · right
      rcases List.mem_pair.mp (List.mem_of_getElem? ho) with heq | heq
      · refine newPoll_send ho ?_ hproper.2.1 (.inl rfl) nofun hnonneg hunique
        rw [heq, hdst]
        rfl
      · refine newPoll_send ho ?_ hproper.2.2 (.inr rfl) nofun hnonneg hunique
        rw [heq, hdst']
        rfl
  | asked a calls ha hasks =>
    refine h.grow false {} fun j d r hj hpolled => .inl ?_
    rcases getElem?_send hj with hold | ⟨k, o, -, ho, rfl⟩
    · exact ⟨d, hold, .refl d⟩
    · exact absurd hpolled (not_polled (.inl (hasks o (List.mem_of_getElem? ho)).2))
  | delivered i fs n hn =>
    exact h.quiet [] (Network.step_stepped hn) (by simp) (by simp) (by simp [send])
  | completed i status fs call n hcall hother hn =>
    exact h.quiet [] (Network.step_stepped hn) (by simp) (by simp) (by simp [send])
  | consumed i status fs call request n hcall hsrc hrequest hn =>
    refine h.quiet _ (Network.step_stepped hn) (by simp) (fun o ho => .inr ?_) rfl
    obtain ⟨isCommit, hdecision⟩ := consumeReply_request ho
    exact ⟨isCommit, _, hdecision⟩

/-! ### Runs of the bank -/

theorem sent_send_of (n : Network) (calls : List OutCall) {src : Option ℤ} {dst : ℤ}
    {request : Request} (h : n.Sent src dst request) : (send n calls).Sent src dst request := by
  obtain ⟨call, hmem, hcall⟩ := h
  exact ⟨call, List.mem_append_left _ hmem, hcall⟩

/-- What the client sends concerns no invariant of the leaders. -/
theorem soleLed_send {n : Network} {book : ℤ → Request} (calls : List OutCall)
    (h : Network.SoleLed c L book n) : Network.SoleLed c L book (send n calls) := by
  have hsent : ∀ {p dst : ℤ} {request : Request}, (send n calls).Sent (some p) dst request →
      n.Sent (some p) dst request := by
    rintro p dst request ⟨call, hmem, hsrc, hcall⟩
    rcases List.mem_append.mp hmem with hold | hnew
    · exact ⟨call, hold, hsrc, hcall⟩
    · obtain ⟨o, -, rfl⟩ := List.mem_map.mp hnew
      cases hsrc
  have hheld : ∀ {p : ℤ} {request : TransferReq}, n.Held p request →
      (send n calls).Held p request := by
    rintro p request (hpending | ⟨isCommit, dst, hs⟩)
    · exact .inl hpending
    · exact .inr ⟨isCommit, dst, sent_send_of n calls hs⟩
  refine ⟨fun p dst q hs => h.proposals p dst q (hsent hs),
    fun p dst q hs => h.commits p dst q (hsent hs), h.lone,
    fun p hleads hawait hbook => hheld (h.ready p hleads hawait hbook), ?_⟩
  rintro src p request ⟨call, hmem, hsrc, hdst, hrequest, hresponse⟩
  rcases List.mem_append.mp hmem with hold | hnew
  · exact hheld (h.yes src p request ⟨call, hold, hsrc, hdst, hrequest, hresponse⟩)
  · obtain ⟨o, -, rfl⟩ := List.mem_map.mp hnew
    cases hresponse

/-- Every request of a deliver is no Sync reply. -/
theorem each_deliver (L : Leaders c) (n : Network) (i : ℕ) (fs : FileSystem) :
    Network.Each (Server.NoEntries L) n (.deliver i fs) := by
  apply Network.each_of_acts
  intro id fs' input hacts
  cases hacts
  trivial

/-- What holds of a bank with one leader in every cluster, in every run of orderly actions. -/
structure Sole (L : Leaders c) (as : List Action) (σ : System) : Prop where
  banked : Banked c as σ
  polls : Polls L σ.network
  led : ∀ book, Network.Fits c L book σ.network → Network.SoleLed c L book σ.network
  named : ∀ a ∈ as, a.Names L

theorem sole_init (L : Leaders c) (disk : ℤ → Disk) : Sole L [] (init c disk) where
  banked := reaches_banked .refl
  polls := by
    constructor
    · rintro dst x r ⟨call, hmem, -⟩
      cases hmem
    · intro j j' d d' r r' hj
      cases List.mem_of_getElem? hj
  led := fun book _ => Network.soleLed_init c L book disk
  named := nofun

theorem Sole.step (h : Sole L as σ) (hstep : Stepped c σ a σ') (horderly : Orderly L σ a) :
    Sole L (as ++ [a]) σ' where
  banked := h.banked.step hstep horderly.working horderly.fresh horderly.proper
  polls := h.polls.step hstep horderly
  named := List.forall_mem_append.mpr ⟨h.named, by simpa using horderly.names⟩
  led := by
    intro book hfits
    have hworking := horderly.working
    have hunsynced := horderly.unsynced
    have hbefore : ∀ {n : Network} (calls : List OutCall),
        Network.Fits c L book (send n calls) → Network.Fits c L book n :=
      fun calls hfits dst x r hs => hfits dst x r (sent_send_of _ calls hs)
    have hserver : ∀ {n : Network} {e : Event}, Network.Stepped c σ.network e n → e.working →
        Network.Each (Server.NoEntries L) σ.network e → Network.Fits c L book n →
          Network.SoleLed c L book n := by
      intro n e hn he hsync hfits
      exact (h.led book (hfits.before hn)).step hfits h.banked.provenance hn he hsync
    cases hstep with
    | intra => exact soleLed_send _ (h.led book (hbefore _ hfits))
    | cross => exact soleLed_send _ (h.led book (hbefore _ hfits))
    | asked => exact soleLed_send _ (h.led book (hbefore _ hfits))
    | delivered i fs n hn =>
      exact hserver (Network.step_stepped hn) hworking (each_deliver L _ i fs) hfits
    | completed i status fs call n hcall hother hn =>
      exact hserver (Network.step_stepped hn) hworking hunsynced hfits
    | consumed i status fs call request n hcall hsrc hrequest hn =>
      exact soleLed_send _ (hserver (Network.step_stepped hn) hworking hunsynced (hbefore _ hfits))

theorem reaches_sole (L : Leaders c) {disk : ℤ → Disk}
    (h : Reaches c (fun σ a => Orderly L σ a) disk as σ) : Sole L as σ := by
  induction h with
  | refl => exact sole_init L disk
  | snoc _ horderly hstep ih => exact ih.step (step_stepped hstep) horderly

/-- The polls can be looked up by their tids. -/
theorem Polls.exists_book (h : Polls L σ.network) : ∃ book, Network.Fits c L book σ.network := by
  have hchoice : ∀ tid, ∃ q : Request, ∀ call ∈ σ.network.calls, ∀ r,
      call.request.polled = some r → r.tid = tid → q = call.request := by
    intro tid
    by_cases hsome : ∃ call ∈ σ.network.calls, ∃ r, call.request.polled = some r ∧ r.tid = tid
    · obtain ⟨call, hmem, r, hpolled, rfl⟩ := hsome
      refine ⟨call.request, fun call' hmem' r' hpolled' htid => ?_⟩
      obtain ⟨j, hj⟩ := List.mem_iff_getElem?.mp hmem
      obtain ⟨j', hj'⟩ := List.mem_iff_getElem?.mp hmem'
      exact (h.single j j' call call' r r' hj hj' hpolled hpolled' htid.symm).1
    · exact ⟨.logs, fun call hmem r hpolled htid => absurd ⟨call, hmem, r, hpolled, htid⟩ hsome⟩
  choose book hbook using hchoice
  refine ⟨book, fun dst x r hs => ?_⟩
  obtain ⟨hamount, hleads, hcluster⟩ := h.led dst x r hs
  obtain ⟨call, hmem, -, -, hrequest⟩ := hs
  refine ⟨?_, hamount, hleads, hcluster⟩
  rw [hbook r.tid call hmem r (by rw [hrequest, Request.polled_poll]) rfl, hrequest]

/-- The invariant of the leaders, with the polls by their tids. -/
theorem Sole.exists_book (h : Sole L as σ) :
    ∃ book, Network.Fits c L book σ.network ∧ Network.SoleLed c L book σ.network := by
  obtain ⟨book, hfits⟩ := h.polls.exists_book
  exact ⟨book, hfits, h.led book hfits⟩

/-- Every leader isolates its transactions in flight, and none of its clients is overdrawn. -/
theorem reaches_isolated (L : Leaders c) {disk : ℤ → Disk}
    (h : Reaches c (fun σ a => Orderly L σ a) disk as σ) {k : ℤ} (hlow : 1 ≤ k)
    (hhigh : k ≤ c.numClusters) : (σ.network.servers (L.leader k)).Isolated c := by
  obtain ⟨book, -, hled⟩ := (reaches_sole L h).exists_book
  exact (hled.lone _ (L.leads hlow hhigh)).isolated

/-- The first server of every cluster. -/
def firstServers : Leaders .standard where
  leader := firstServer
  member := by
    intro k hlow hhigh
    have hhigh : k ≤ 3 := hhigh
    interval_cases k <;> decide

/-- Servers 1 and 4 prepare and commit a cross-shard transaction, and server 1 then commits a
transfer inside its cluster. -/
def serialRun : List Action :=
  committedRun ++ [.processTransaction ⟨2, 3, 4⟩ ["S1".toList, "S4".toList, "S7".toList] 8,
    .arrives 20, .arrives 21, .returns 21, .arrives 20, .arrives 23, .returns 23, .arrives 20]

theorem serialRun_reaches : ∃ σ, Reaches .standard (fun σ a => Orderly firstServers σ a)
    (fun _ => .empty) serialRun σ ∧ σ.network.Answered none 1 (.transfer ⟨⟨2, 3, 4⟩, 8⟩)
      (.transfer ⟨true, 8⟩) := by
  obtain ⟨σ, hσ, hanswered⟩ := (Option.any_eq_true _ _).mp
    (show (runIf (step .standard)
      (fun σ a => (a.Names firstServers ∧ a.Nonneg) ∧ UniqueTid σ a ∧ Unsynced firstServers σ a)
      (init .standard fun _ => .empty) serialRun).any (fun σ => decide (∃ call ∈ σ.network.calls,
        call.src = none ∧ call.dst = 1 ∧ call.request = .transfer ⟨⟨2, 3, 4⟩, 8⟩ ∧
          call.response = some (.transfer ⟨true, 8⟩))) = true by decide +kernel)
  have hnamed := runs_of_runIf hσ
  have hguard : Runs (step .standard) (fun _ a => a.working ∧ a.proper)
      (init .standard fun _ => .empty) serialRun σ := by
    refine runs_of_forall (P := fun a => a.working ∧ a.proper) hnamed.run_eq ?_
    simp [serialRun, committedRun, Action.arrives, Action.returns, Action.working, Action.proper,
      FileSystem.allOpen_working, TransferReq.Proper, IsClient, totalClients]
  exact ⟨σ, (hguard.and hnamed).mono fun _ _ h => ⟨h.1.1, h.1.2, h.2.1.1, h.2.1.2, h.2.2.1, h.2.2.2⟩,
    of_decide_eq_true hanswered⟩

theorem reaches_isolated_serialRun :
    ∃ σ, run (step .standard) (init .standard fun _ => .empty) serialRun = some σ ∧
      (σ.network.servers 1).Isolated .standard := by
  obtain ⟨σ, hσ, -⟩ := serialRun_reaches
  exact ⟨σ, hσ.run_eq, reaches_isolated firstServers hσ (k := 1) (by decide) (by decide)⟩

end System
end TpcBank
