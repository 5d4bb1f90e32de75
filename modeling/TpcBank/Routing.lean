import TpcBank.Steps

/-! Who sends which message to whom, and what a response has to do with its request. -/
namespace TpcBank
open Transition

namespace Constants

/-- The peers of a server: the other servers of its cluster. -/
def peers (c : Constants) (id : ℤ) : List ℤ :=
  (c.serversById.map Prod.snd).filter fun p =>
    p ≠ id ∧ c.getClusterIdFromServerId p = c.getClusterIdFromServerId id

@[simp] theorem mem_peers {c : Constants} {id p : ℤ} :
    p ∈ c.peers id ↔ (1 ≤ p ∧ p ≤ c.numClusters * c.clusterSize) ∧ p ≠ id ∧
      c.getClusterIdFromServerId p = c.getClusterIdFromServerId id := by
  unfold peers
  rw [List.mem_filter, decide_eq_true_iff, List.mem_map]
  apply and_congr_left
  intro _
  constructor
  · rintro ⟨⟨name, id'⟩, hmem, rfl⟩
    exact (mem_serversById.mp hmem).2
  · intro hp
    exact ⟨_, mem_serversById.mpr ⟨rfl, hp⟩, rfl⟩

end Constants

namespace Server

variable {c : Constants} {fs : FileSystem} {s : Server} {input : Input} {r : Handled}

theorem mem_broadcast {request : Request} {o : OutCall} :
    o ∈ s.broadcast request ↔ o.dst ∈ s.stubs ∧ o.request = request := by
  unfold broadcast
  rw [List.mem_map]
  constructor
  · rintro ⟨dst, hdst, rfl⟩
    exact ⟨hdst, rfl⟩
  · rintro ⟨hdst, hrequest⟩
    exact ⟨o.dst, hdst, by rw [← hrequest]⟩

/-- A Sync goes to the sender of a Prepare, or to the server that refused one. -/
def SyncsTo (input : Input) (dst : ℤ) : Prop :=
  (∃ request, input = .request (.prepare request) ∧ dst = request.ballot.serverId) ∨
    ∃ request response, input = .reply (.prepare request) .ok response ∧
      dst = response.toPrepare.serverId.getD 0 ∧ ∃ l, l ∈ response.toPrepare.lastInserted

/-- A server broadcasts Prepare, Accept and Commit to its peers; all else it sends is Sync. -/
theorem Acted.sent_cases (h : Acted c fs s input r) {o : OutCall} (ho : o ∈ r.sent) :
    (o.request = .sync ⟨s.lastInserted⟩ ∧ SyncsTo input o.dst) ∨ o.dst ∈ s.stubs ∧
      (o.request = .prepare ⟨⟨s.ballotNum + 1, s.serverId⟩, s.lastInserted⟩ ∨
        (∃ v, o.request = .accept ⟨s.promisedNum, v⟩) ∨ o.request = .commit ⟨s.acceptNum⟩) := by
  cases h with
  | opened =>
    obtain ⟨hdst, hrequest⟩ := mem_broadcast.mp ho
    exact .inr ⟨hdst, .inl hrequest⟩
  | accepting isCrossShard request =>
    obtain ⟨hdst, hrequest⟩ := mem_broadcast.mp ho
    exact .inr ⟨hdst, .inr (.inl ⟨request, hrequest⟩)⟩
  | finished =>
    obtain ⟨hdst, hrequest⟩ := mem_broadcast.mp ho
    exact .inr ⟨hdst, .inr (.inr hrequest)⟩
  | committed =>
    obtain ⟨hdst, hrequest⟩ := mem_broadcast.mp ho
    exact .inr ⟨hdst, .inr (.inr hrequest)⟩
  | refused request inSync res sent hack hballot hlatest hsent =>
    exact .inl ⟨(hsent o ho).1, .inl ⟨request, rfl, (hsent o ho).2.1⟩⟩
  | prepareCounted request response ahead sent hprep hnum hid hsent hdst =>
    exact .inl ⟨hsent o ho, .inr ⟨request, response, rfl, hdst o ho⟩⟩
  | _ => simp at ho

/-- The answer to a Prepare repeats its ballot, and an acknowledgement is a promise. -/
theorem Acted.response_prepare (h : Acted c fs s input r) {request : PrepareReq} {res : Response}
    (hinput : input = .request (.prepare request)) (hres : r.response = some res) :
    ∃ reply, res = .prepare reply ∧ reply.ballot = request.ballot ∧
      (∀ l ∈ reply.lastInserted, reply.serverId = some s.serverId) ∧
      (reply.ack = true → s.ballotNum < request.ballot.num ∧
        request.lastInserted = s.lastInserted ∧
        reply.acceptVal = (if s.accepted then some s.acceptVal else none) ∧
        r.server = { s with
          promised := true
          promisedNum := request.ballot
          ballotNum := request.ballot.num }) := by
  cases h with
  | promised request' hconn hnum hlast =>
    simp only [Input.request.injEq, Request.prepare.injEq] at hinput
    subst hinput
    exact ⟨_, (Option.some.inj hres).symm, rfl, nofun, fun _ => ⟨hnum, hlast, rfl, rfl⟩⟩
  | refused request' inSync reply sent hack hballot hlatest hsent hserver =>
    simp only [Input.request.injEq, Request.prepare.injEq] at hinput
    subst hinput
    refine ⟨reply, (Option.some.inj hres).symm, hballot, hserver, fun h => ?_⟩
    rw [hack] at h
    cases h
  | idle input response hplain =>
    subst hinput
    cases hplain res hres with
    | empty _ h => simp at h
  | _ => simp at hinput

theorem Acted.response_accept (h : Acted c fs s input r) {request : AcceptReq} {res : Response}
    (hinput : input = .request (.accept request)) (hres : r.response = some res) :
    ∃ reply, res = .accept reply ∧ reply.ballot = request.ballot ∧
      (reply.ack = true → s.promised = true ∧ request.ballot.num = s.promisedNum.num ∧
        r.server.accepted = true ∧ r.server.acceptNum = request.ballot ∧
        r.server.acceptVal = request.r) := by
  cases h with
  | accepted request' d hconn hprom hnum hd =>
    simp only [Input.request.injEq, Request.accept.injEq] at hinput
    subst hinput
    exact ⟨_, (Option.some.inj hres).symm, rfl, fun _ => ⟨hprom, hnum, rfl, rfl, rfl⟩⟩
  | idle input response hplain =>
    subst hinput
    cases hplain res hres with
    | empty _ h => simp at h
    | accept => exact ⟨_, rfl, rfl, by simp⟩
  | _ => simp at hinput

theorem Acted.response_sync (h : Acted c fs s input r) {request : SyncReq} {res : Response}
    (hinput : input = .request (.sync request)) (hres : r.response = some res) :
    res = .sync (s.processSyncCall request) := by
  cases h with
  | answered request' =>
    simp only [Input.request.injEq, Request.sync.injEq] at hinput
    subst hinput
    exact (Option.some.inj hres).symm
  | idle input response hplain =>
    subst hinput
    cases hplain res hres with
    | empty _ h => simp at h
  | _ => simp at hinput

/-- A poll is answered with the tid of its request. -/
theorem Acted.response_poll (h : Acted c fs s input r) {isCrossShard : Bool}
    {request : TransferReq} {res : Response} (hinput : input = .request (.poll isCrossShard request))
    (hres : r.response = some res) : ∃ ack, res = .transfer ⟨ack, request.tid⟩ := by
  have hpoll : ∀ {x : Bool} {request' : TransferReq}, Input.request (.poll x request') =
      .request (.poll isCrossShard request) → request' = request := by
    intro x request' heq
    have hpolled := congrArg Request.polled (Input.request.inj heq)
    simpa using hpolled
  cases h with
  | opened x request' => cases hres
  | accepting x request' => cases hres
  | rejected x request' =>
    obtain rfl := hpoll hinput
    exact ⟨false, (Option.some.inj hres).symm⟩
  | failed x request' =>
    obtain rfl := hpoll hinput
    exact ⟨false, (Option.some.inj hres).symm⟩
  | finished request' =>
    obtain rfl := hpoll (x := true) hinput
    exact ⟨true, (Option.some.inj hres).symm⟩
  | committed request' =>
    obtain rfl := hpoll (x := false) hinput
    exact ⟨true, (Option.some.inj hres).symm⟩
  | idle input response hplain =>
    subst hinput
    have hplain := hplain res hres
    cases isCrossShard <;> cases hplain <;> rename_i h <;> simp [Request.poll] at h
  | _ => cases isCrossShard <;> simp [Request.poll] at hinput

theorem fromLogEntry_getLogEntryFromLocalLog (e : WALEntry) :
    fromLogEntry (getLogEntryFromLocalLog e) = e := by
  simp [fromLogEntry, getLogEntryFromLocalLog]

/-- The entries that a server reports to a peer are entries of its log. -/
theorem mem_processSyncCall {request : SyncReq} {e : LogEntry}
    (h : e ∈ (s.processSyncCall request).logs) : fromLogEntry e ∈ s.log := by
  unfold processSyncCall at h
  split_ifs at h with hlast hneg
  · cases h
  · obtain ⟨w, hw, rfl⟩ := List.mem_map.mp h
    rw [fromLogEntry_getLogEntryFromLocalLog]
    exact List.mem_of_mem_drop hw
  · cases h

end Server

namespace Network

/-- What the history says of the routes of messages and of the answers, in every run. -/
structure Routed (c : Constants) (n : Network) : Prop where
  identity : ∀ id, (n.servers id).identity = (id, c.getClusterIdFromServerId id, c.peers id)
  client : ∀ dst r, n.Sent none dst r → r.fromClient = true
  server : ∀ p dst r, n.Sent (some p) dst r →
    (∃ q, r = .sync q) ∧ c.getClusterIdFromServerId dst = c.getClusterIdFromServerId p ∨
      dst ∈ c.peers p ∧ ((∃ q, r = .prepare q ∧ q.ballot.serverId = p) ∨ (∃ q, r = .accept q) ∨
        ∃ q, r = .commit q)
  prepareAnswer : ∀ src dst q res, n.Answered src dst (.prepare q) res →
    ∃ reply, res = .prepare reply ∧ reply.ballot = q.ballot ∧
      ∀ l ∈ reply.lastInserted, reply.serverId = some dst
  acceptAnswer : ∀ src dst q res, n.Answered src dst (.accept q) res →
    ∃ reply, res = .accept reply ∧ reply.ballot = q.ballot
  pollAnswer : ∀ src dst isCrossShard q res, n.Answered src dst (.poll isCrossShard q) res →
    ∃ ack, res = .transfer ⟨ack, q.tid⟩

variable {c : Constants} {n n' : Network} {e : Event}

theorem routed_init (c : Constants) (disk : ℤ → Disk) : Routed c (init c disk) where
  identity := fun _ => rfl
  client := by rintro dst r ⟨call, hmem, -⟩; cases hmem
  server := by rintro p dst r ⟨call, hmem, -⟩; cases hmem
  prepareAnswer := by rintro src dst q res ⟨call, hmem, -⟩; cases hmem
  acceptAnswer := by rintro src dst q res ⟨call, hmem, -⟩; cases hmem
  pollAnswer := by rintro src dst x q res ⟨call, hmem, -⟩; cases hmem

/-- Both peers of a Prepare are of one cluster, and a refusal names its server. -/
theorem Routed.syncsTo (h : Routed c n) {id dst : ℤ} {fs : FileSystem} {input : Input}
    (hacts : Acts n e id fs input) (hto : Server.SyncsTo input dst) :
    c.getClusterIdFromServerId dst = c.getClusterIdFromServerId id := by
  rcases hacts.sent with ⟨src, request, rfl, hs⟩ | ⟨dst', request, status, res, rfl, hs, hans⟩
  · rcases hto with ⟨q, hinput, rfl⟩ | ⟨q, response, hinput, -⟩
    · cases hinput
      cases src with
      | none => cases h.client _ _ hs
      | some p =>
        rcases h.server p id _ hs with ⟨⟨q', hq⟩, -⟩ | ⟨hpeer, ⟨q', hq, hid⟩ | ⟨q', hq⟩ | ⟨q', hq⟩⟩
        · cases hq
        · cases hq
          rw [hid, (Constants.mem_peers.mp hpeer).2.2]
        · cases hq
        · cases hq
    · cases hinput
  · rcases hto with ⟨q, hinput, -⟩ | ⟨q, response, hinput, rfl, l, hl⟩
    · cases hinput
    · cases hinput
      obtain ⟨reply, rfl, -, hserver⟩ := h.prepareAnswer _ _ _ _ (hans rfl)
      rw [Response.toPrepare, hserver l hl]
      rcases h.server id dst' _ hs with ⟨⟨q', hq⟩, -⟩ | ⟨hpeer, -⟩
      · cases hq
      · exact (Constants.mem_peers.mp hpeer).2.2

theorem Routed.step (h : Routed c n) (hstep : Stepped c n e n') : Routed c n' := by
  have hidentity := hstep.server_invariant
    (I := fun id s => s.identity = (id, c.getClusterIdFromServerId id, c.peers id)) h.identity
    fun id fs input r _ hr => hr.identity.trans (h.identity id)
  refine ⟨hidentity, ?_, ?_, ?_, ?_, ?_⟩
  · intro dst r hs
    rcases hstep.client_before hs with hold | ⟨-, hclient⟩
    · exact h.client dst r hold
    · exact hclient
  · intro p dst request hs
    rcases hstep.sent_before hs with hold | ⟨fs, input, r, hacts, hr, -, ho⟩
    · exact h.server p dst request hold
    · have hid := h.identity p
      have hserver : (n.servers p).serverId = p := congrArg Prod.fst hid
      have hstubs : (n.servers p).stubs = c.peers p := congrArg (fun x => x.2.2) hid
      rcases hr.sent_cases ho with ⟨hsync, hto⟩ | ⟨hdst, hkind⟩
      · exact .inl ⟨⟨_, hsync⟩, h.syncsTo hacts hto⟩
      · rw [hstubs] at hdst
        refine .inr ⟨hdst, ?_⟩
        rcases hkind with hprepare | ⟨v, haccept⟩ | hcommit
        · exact .inl ⟨_, hprepare, hserver⟩
        · exact .inr (.inl ⟨_, haccept⟩)
        · exact .inr (.inr ⟨_, hcommit⟩)
  · intro src dst q res ha
    rcases hstep.answered_before ha with hold | ⟨fs, r, hacts, hr, -, -, hres⟩
    · exact h.prepareAnswer src dst q res hold
    · obtain ⟨reply, hreply, hballot, hserver, -⟩ := hr.response_prepare rfl hres
      have hid : (n.servers dst).serverId = dst := congrArg Prod.fst (h.identity dst)
      rw [hid] at hserver
      exact ⟨reply, hreply, hballot, hserver⟩
  · intro src dst q res ha
    rcases hstep.answered_before ha with hold | ⟨fs, r, hacts, hr, -, -, hres⟩
    · exact h.acceptAnswer src dst q res hold
    · obtain ⟨reply, hreply, hballot, -⟩ := hr.response_accept rfl hres
      exact ⟨reply, hreply, hballot⟩
  · intro src dst x q res ha
    rcases hstep.answered_before ha with hold | ⟨fs, r, hacts, hr, -, -, hres⟩
    · exact h.pollAnswer src dst x q res hold
    · exact hr.response_poll rfl hres

/-- The call at a position was there before, is a request of the client, or was sent by a
server. -/
theorem Stepped.earlier (h : Stepped c n e n') {j : ℕ} {b' : Call} (hj : n'.calls[j]? = some b') :
    (∃ b, n.calls[j]? = some b ∧ Later b b') ∨
      (∃ dst request, e = .call dst request ∧ j = n.calls.length ∧
        b' = ⟨none, dst, request, none, false⟩) ∨
      n.calls.length ≤ j ∧ b'.request.fromClient = false := by
  have hold : ∀ {i : ℕ} {b call : Call} {more : List Call}, n.calls[i]? = some b →
      (n.calls.set i call ++ more)[j]? = some b' → Later b call →
      (∃ b, n.calls[j]? = some b ∧ Later b b') ∨ n.calls.length ≤ j ∧ b' ∈ more := by
    intro i b call more hi hget hlater
    by_cases hlen : j < n.calls.length
    · obtain ⟨call', hcall', hlater'⟩ :=
        getElem?_set_later more hi hlater (List.getElem?_eq_getElem hlen)
      obtain rfl : b' = call' := Option.some.inj (hget.symm.trans hcall')
      exact .inl ⟨_, List.getElem?_eq_getElem hlen, hlater'⟩
    · rw [List.getElem?_append_right (by simpa using hlen)] at hget
      exact .inr ⟨not_lt.mp hlen, List.mem_of_getElem? hget⟩
  have hout : ∀ {id : ℤ} {r : Handled} {fs : FileSystem} {input : Input},
      (n.servers id).Acted c fs input r → b' ∈ outCalls id r.sent →
      b'.request.fromClient = false := by
    intro id r fs input hr hmem
    rcases hr.sent_cases (mem_outCalls.mp hmem).1 with ⟨hq, -⟩ | ⟨-, hq | ⟨v, hq⟩ | hq⟩ <;>
      · dsimp only at hq
        rw [hq]
        rfl
  cases h with
  | called dst request hclient =>
    by_cases hlen : j < n.calls.length
    · rw [List.getElem?_append_left hlen] at hj
      exact .inl ⟨b', hj, .refl b'⟩
    · rw [List.getElem?_append_right (not_lt.mp hlen)] at hj
      have hzero : j - n.calls.length = 0 := by
        have := (List.getElem?_eq_some_iff.mp hj).1
        simpa using this
      rw [hzero] at hj
      exact .inr (.inl ⟨dst, request, rfl, by omega, (Option.some.inj hj).symm⟩)
  | delivered i fs b r hcall hnew hr =>
    rcases hold hcall hj ⟨rfl, rfl, rfl, by simp [hnew], fun h => h⟩ with hb | ⟨hlen, hmem⟩
    · exact .inl hb
    · exact .inr (.inr ⟨hlen, hout hr hmem⟩)
  | ended i status fs b hcall =>
    rw [← List.append_nil (n.calls.set i _)] at hj
    rcases hold hcall hj ⟨rfl, rfl, rfl, fun _ h => h, fun _ => rfl⟩ with hb | ⟨-, hmem⟩
    · exact .inl hb
    · cases hmem
  | completed i status fs b src r hcall hopen hsrc hr =>
    rcases hold hcall hj ⟨rfl, rfl, rfl, fun _ h => h, fun _ => rfl⟩ with hb | ⟨hlen, hmem⟩
    · exact .inl hb
    · exact .inr (.inr ⟨hlen, hout hr hmem⟩)

theorem reaches_routed {P : Network → Event → Prop} {disk : ℤ → Disk} {es : List Event}
    (h : Reaches c P disk es n) : Routed c n :=
  h.invariant (routed_init c disk) fun _ _ _ hn _ hstep => hn.step (step_stepped hstep)

namespace Routed

theorem serverId (h : Routed c n) (id : ℤ) : (n.servers id).serverId = id :=
  congrArg Prod.fst (h.identity id)

theorem clusterId (h : Routed c n) (id : ℤ) :
    (n.servers id).clusterId = c.getClusterIdFromServerId id :=
  congrArg (fun x => x.2.1) (h.identity id)

theorem stubs (h : Routed c n) (id : ℤ) : (n.servers id).stubs = c.peers id :=
  congrArg (fun x => x.2.2) (h.identity id)

/-- The client sends none of the four requests that servers exchange. -/
theorem src_of_not_fromClient (h : Routed c n) {src : Option ℤ} {dst : ℤ} {r : Request}
    (hsent : n.Sent src dst r) (hr : r.fromClient = false) : ∃ p, src = some p := by
  cases src with
  | none =>
    rw [h.client dst r hsent] at hr
    cases hr
  | some p => exact ⟨p, rfl⟩

/-- No server sends a request of the client. -/
theorem src_of_fromClient (h : Routed c n) {src : Option ℤ} {dst : ℤ} {r : Request}
    (hsent : n.Sent src dst r) (hr : r.fromClient = true) : src = none := by
  cases src with
  | none => rfl
  | some p =>
    rcases h.server p dst r hsent with ⟨⟨q, rfl⟩, -⟩ | ⟨-, ⟨q, rfl, -⟩ | ⟨q, rfl⟩ | ⟨q, rfl⟩⟩ <;>
      cases hr

theorem sync (h : Routed c n) {p dst : ℤ} {q : SyncReq} (hsent : n.Sent (some p) dst (.sync q)) :
    c.getClusterIdFromServerId dst = c.getClusterIdFromServerId p := by
  rcases h.server p dst _ hsent with ⟨-, hcluster⟩ | ⟨-, ⟨q', hq, -⟩ | ⟨q', hq⟩ | ⟨q', hq⟩⟩
  · exact hcluster
  · cases hq
  · cases hq
  · cases hq

theorem prepare (h : Routed c n) {src : Option ℤ} {dst : ℤ} {q : PrepareReq}
    (hsent : n.Sent src dst (.prepare q)) :
    src = some q.ballot.serverId ∧ dst ∈ c.peers q.ballot.serverId := by
  obtain ⟨p, rfl⟩ := h.src_of_not_fromClient hsent rfl
  rcases h.server p dst _ hsent with ⟨⟨q', hq⟩, -⟩ | ⟨hdst, ⟨q', hq, hid⟩ | ⟨q', hq⟩ | ⟨q', hq⟩⟩
  · cases hq
  · cases hq
    rw [hid]
    exact ⟨rfl, hdst⟩
  · cases hq
  · cases hq

/-- A Prepare comes with the ballot of a peer. -/
theorem prepare_foreign (h : Routed c n) {src : Option ℤ} {dst : ℤ} {q : PrepareReq}
    (hsent : n.Sent src dst (.prepare q)) : q.ballot.serverId ≠ dst :=
  (Constants.mem_peers.mp (h.prepare hsent).2).2.1.symm

theorem accept (h : Routed c n) {src : Option ℤ} {dst : ℤ} {q : AcceptReq}
    (hsent : n.Sent src dst (.accept q)) : ∃ p, src = some p ∧ dst ∈ c.peers p := by
  obtain ⟨p, rfl⟩ := h.src_of_not_fromClient hsent rfl
  rcases h.server p dst _ hsent with ⟨⟨q', hq⟩, -⟩ | ⟨hdst, -⟩
  · cases hq
  · exact ⟨p, rfl, hdst⟩

theorem commit (h : Routed c n) {src : Option ℤ} {dst : ℤ} {q : CommitReq}
    (hsent : n.Sent src dst (.commit q)) : ∃ p, src = some p ∧ dst ∈ c.peers p := by
  obtain ⟨p, rfl⟩ := h.src_of_not_fromClient hsent rfl
  rcases h.server p dst _ hsent with ⟨⟨q', hq⟩, -⟩ | ⟨hdst, -⟩
  · cases hq
  · exact ⟨p, rfl, hdst⟩

end Routed
end Network
end TpcBank
