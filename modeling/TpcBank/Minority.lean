import TpcBank.Connectivity

/-! A server whose peers are all disconnected commits nothing: it gets no vote but its own, and
that is no majority. -/
namespace TpcBank
open Decimal Transition

namespace Server

variable {c : Constants} {fs : FileSystem} {s : Server} {input : Input} {r : Handled}

/-- The server is in no accept phase, and has at most its own promise. -/
structure Unsupported (s : Server) : Prop where
  waiting : s.awaitAcceptDecision = false
  votes : s.awaitPrepareDecision = true → s.prepareSuccesses ≤ 1

theorem Unsupported.no_majority (h : s.Unsupported) (hprep : s.awaitPrepareDecision = true) :
    ¬ majority ≤ s.prepareSuccesses := by
  have hvotes := h.votes hprep
  have hmajority : majority = 2 := rfl
  omega

/-- Without a promise from another server no round gets to its accept phase. -/
theorem Acted.unsupported (hacted : Acted c fs s input r) (h : s.Unsupported)
    (hrefused : ∀ q response, input = .reply (.prepare q) .ok response →
      response.toPrepare.ack = false) : r.server.Unsupported := by
  cases hacted with
  | opened => exact ⟨h.waiting, fun _ => le_rfl⟩
  | rejected => exact ⟨h.waiting, nofun⟩
  | accepting _ _ _ _ hprep hmaj => exact absurd hmaj (h.no_majority hprep)
  | finished => exact ⟨rfl, nofun⟩
  | committed => exact ⟨rfl, nofun⟩
  | failed => exact ⟨rfl, h.votes⟩
  | prepareCounted q response ahead sent hprep =>
    refine ⟨h.waiting, fun _ => ?_⟩
    have hack := hrefused q response rfl
    show (if response.toPrepare.ack then s.prepareSuccesses + 1 else s.prepareSuccesses) ≤ 1
    rw [hack]
    exact h.votes hprep
  | _ => exact ⟨h.waiting, h.votes⟩

/-- It acknowledges no transaction. -/
theorem Acted.no_acknowledgement (hacted : Acted c fs s input r) (h : s.Unsupported) (tid : ℤ) :
    r.response ≠ transferRes true tid := by
  intro hres
  cases hacted with
  | idle input response hplain => cases hplain _ hres
  | finished _ _ _ hacc =>
    rw [h.waiting] at hacc
    cases hacc
  | committed _ _ _ _ hacc =>
    rw [h.waiting] at hacc
    cases hacc
  | _ => cases hres

/-- It proposes no transaction. -/
theorem Acted.no_proposal (hacted : Acted c fs s input r) (h : s.Unsupported) {dst : ℤ}
    {q : AcceptReq} : ⟨dst, .accept q⟩ ∉ r.sent := by
  intro ho
  obtain ⟨isCrossShard, -, ⟨-, hprep, hmaj, -⟩, -⟩ := hacted.sent_accept ho
  exact h.no_majority hprep hmaj

end Server

namespace Network

variable {c : Constants} {n n' : Network} {e : Event} {p : ℤ}

/-- A server without support, and without a promise that is still on its way to it. -/
structure Cut (p : ℤ) (n : Network) : Prop where
  unsupported : (n.servers p).Unsupported
  refused : ∀ call ∈ n.calls, call.src = some p → ∀ q, call.request = .prepare q →
    call.completed = false → ∀ res, call.response = some res → res.toPrepare.ack = false

/-- From one state to another, a server acknowledges no transaction and proposes none. -/
structure Stalled (p : ℤ) (n n' : Network) : Prop where
  unanswered : ∀ src request tid, n'.Answered src p request (.transfer ⟨true, tid⟩) →
    n.Answered src p request (.transfer ⟨true, tid⟩)
  unproposed : ∀ dst q, n'.Sent (some p) dst (.accept q) → n.Sent (some p) dst (.accept q)

theorem Stalled.refl (p : ℤ) (n : Network) : Stalled p n n := ⟨fun _ _ _ h => h, fun _ _ h => h⟩

theorem Stalled.trans {n₁ n₂ n₃ : Network} (h : Stalled p n₁ n₂) (h' : Stalled p n₂ n₃) :
    Stalled p n₁ n₃ :=
  ⟨fun src request tid ha => h.unanswered src request tid (h'.unanswered src request tid ha),
    fun dst q hs => h.unproposed dst q (h'.unproposed dst q hs)⟩

theorem Cut.stalled (h : Cut p n) (hstep : Stepped c n e n') : Stalled p n n' where
  unanswered := by
    intro src request tid ha
    rcases hstep.answered_before ha with hold | ⟨fs, r, -, hr, -, -, hres⟩
    · exact hold
    · exact absurd hres (hr.no_acknowledgement h.unsupported tid)
  unproposed := by
    intro dst q hsent
    rcases hstep.sent_before hsent with hold | ⟨fs, input, r, -, hr, -, ho⟩
    · exact hold
    · exact absurd ho (hr.no_proposal h.unsupported)

/-- A disconnected server refuses what it is asked to promise. -/
theorem refuses {fs : FileSystem} {s : Server} {input : Input} {q : PrepareReq} {r : Handled}
    {res : Response} (hr : s.Acted c fs input r) (hinput : input = .request (.prepare q))
    (hdisc : s.iAmDisconnected = true) (hres : r.response = some res) :
    res.toPrepare.ack = false := by
  cases hr with
  | idle _ _ hplain => cases hplain _ hres <;> rfl
  | opened isCrossShard => cases isCrossShard <;> cases hinput
  | accepting isCrossShard => cases isCrossShard <;> cases hinput
  | rejected isCrossShard => cases isCrossShard <;> cases hinput
  | failed isCrossShard => cases isCrossShard <;> cases hinput
  | decided isCommit => cases isCommit <;> cases hinput
  | promised _ hconn =>
    rw [hdisc] at hconn
    cases hconn
  | refused _ _ _ _ hack =>
    cases hres
    exact hack
  | _ => cases hinput

/-- A call that was answered was sent before. -/
theorem Stepped.before_answered (h : Stepped c n e n') {j : ℕ} {d : Call}
    (hd : n'.calls[j]? = some d) (hanswered : d.response.isSome = true) :
    ∃ b, n.calls[j]? = some b ∧ Later b d := by
  by_cases hlen : j < n.calls.length
  · obtain ⟨d', hd', hlater⟩ := h.later (List.getElem?_eq_getElem hlen)
    rw [Option.some.inj (hd.symm.trans hd')]
    exact ⟨_, List.getElem?_eq_getElem hlen, hlater⟩
  · exfalso
    have hnew : ∀ {calls more : List Call}, calls.length = n.calls.length →
        (calls ++ more)[j]? = some d → (∀ call ∈ more, call.response = none) → False := by
      intro calls more hcalls hd hmore
      rw [List.getElem?_append_right (by omega)] at hd
      rw [hmore d (List.mem_of_getElem? hd)] at hanswered
      cases hanswered
    cases h with
    | called => exact hnew rfl hd (by simp)
    | delivered =>
      exact hnew (List.length_set ..) hd fun call hmem => (mem_outCalls.mp hmem).2.2.1
    | ended =>
      rw [List.getElem?_eq_none (by simpa using hlen)] at hd
      cases hd
    | completed =>
      exact hnew (List.length_set ..) hd fun call hmem => (mem_outCalls.mp hmem).2.2.1

theorem Cut.step (h : Cut p n) (hrouted : Routed c n) (hstep : Stepped c n e n')
    (hpeers : ∀ q ∈ c.peers p, (n.servers q).iAmDisconnected = true) : Cut p n' where
  unsupported := by
    cases hstep.changeAt p with
    | same hserver =>
      rw [hserver]
      exact h.unsupported
    | handled fs input r hacts hr hserver =>
      rw [hserver]
      refine hr.unsupported h.unsupported fun q response hinput => ?_
      cases hacts with
      | deliver => cases hinput
      | complete hcall hopen hsrc =>
        obtain ⟨hrequest, rfl, rfl⟩ := Input.reply.inj hinput
        obtain ⟨hcompleted, hanswered⟩ : _ ∧ _ := by simpa [canComplete] using hopen
        obtain ⟨res, hres⟩ := Option.isSome_iff_exists.mp hanswered
        rw [hres, Option.getD_some]
        exact h.refused _ (List.mem_of_getElem? hcall) hsrc q hrequest hcompleted res hres
  refused := by
    intro d hmem hsrc q hrequest hopen res hres
    obtain ⟨j, hd⟩ := List.mem_iff_getElem?.mp hmem
    obtain ⟨b, hb, hlater⟩ := hstep.before_answered hd (by rw [hres]; rfl)
    have hbefore : b.completed = false := by
      by_contra hended
      rw [hlater.completed (by simpa using hended)] at hopen
      cases hopen
    rw [hlater.src] at hsrc
    rw [hlater.request] at hrequest
    cases hold : b.response with
    | some res' =>
      rw [hlater.response res' hold] at hres
      obtain rfl := Option.some.inj hres
      exact h.refused b (List.mem_of_getElem? hb) hsrc q hrequest hbefore res' hold
    | none =>
      -- it is answered now, by a peer
      obtain ⟨fs, r, -, hr, hresponse⟩ := hstep.acts_answered hb hd hold (by rw [hres]; rfl)
      have hpeer : b.dst ∈ c.peers p := by
        have hsent : n.Sent (some p) b.dst (.prepare q) :=
          ⟨b, List.mem_of_getElem? hb, hsrc, rfl, hrequest⟩
        rcases hrouted.server p b.dst _ hsent with ⟨⟨_, heq⟩, -⟩ | ⟨hpeer, -⟩
        · cases heq
        · exact hpeer
      refine refuses hr (by rw [hrequest]) (hpeers b.dst hpeer) ?_
      rw [← hresponse, hres]

end Network

namespace System

variable {c : Constants} {σ σ' : System} {a : Action} {p : ℤ}

/-- What the client sends is no promise, no answer and no proposal. -/
theorem cut_send {n : Network} (h : Network.Cut p n) (calls : List OutCall) :
    Network.Cut p (send n calls) ∧ Network.Stalled p n (send n calls) := by
  have hold : ∀ call ∈ (send n calls).calls, call.src = some p ∨ call.response.isSome = true →
      call ∈ n.calls := by
    intro call hmem hcall
    rcases List.mem_append.mp hmem with hmem | hnew
    · exact hmem
    · obtain ⟨o, -, rfl⟩ := List.mem_map.mp hnew
      rcases hcall with hsrc | hres
      · cases hsrc
      · cases hres
  refine ⟨⟨h.unsupported, fun call hmem hsrc => h.refused call (hold call hmem (.inl hsrc)) hsrc⟩,
    ?_, ?_⟩
  · rintro src request tid ⟨call, hmem, hsrc, hdst, hrequest, hres⟩
    exact ⟨call, hold call hmem (.inr (by rw [hres]; rfl)), hsrc, hdst, hrequest, hres⟩
  · rintro dst q ⟨call, hmem, hsrc, hdst, hrequest⟩
    exact ⟨call, hold call hmem (.inl hsrc), hsrc, hdst, hrequest⟩

theorem Cut.step (h : Network.Cut p σ.network) (hrouted : Network.Routed c σ.network)
    (hpeers : ∀ q ∈ c.peers p, (σ.network.servers q).iAmDisconnected = true)
    (hstep : Stepped c σ a σ') :
    Network.Cut p σ'.network ∧ Network.Stalled p σ.network σ'.network := by
  have hserver : ∀ {n : Network} {e : Event}, σ.network.step c e = some n →
      Network.Cut p n ∧ Network.Stalled p σ.network n := fun hn =>
    ⟨h.step hrouted (Network.step_stepped hn) hpeers, h.stalled (Network.step_stepped hn)⟩
  cases hstep with
  | intra => exact cut_send h _
  | cross => exact cut_send h _
  | asked => exact cut_send h _
  | delivered i fs n hn => exact hserver hn
  | completed i status fs call n hcall hother hn => exact hserver hn
  | consumed i status fs call request n hcall hsrc hrequest hn =>
    obtain ⟨hcut, hstalled⟩ := hserver hn
    obtain ⟨hcut', hstalled'⟩ := cut_send hcut _
    exact ⟨hcut', hstalled.trans hstalled'⟩

end System

namespace Driver

variable {c : Constants} {d d' : Driver} {es more : List DriverEvent} {text : Text}
  {disk : ℤ → Disk} {p : ℤ}

/-- Where Disconnect calls end only with an answer, and while the set that is processed lists none
of the peers of a server, the server acknowledges no transaction and proposes none. -/
theorem reaches_stalled (h : Reaches c (fun d e => d.Heard e) text disk es d)
    (hready : d.ready = true) {t : Transaction} {leaders : List Text} {rest : List Task}
    (hnext : d.todo = .processTransaction t leaders :: rest)
    (halone : ∀ s ∈ c.serverIds, s.2 ∈ c.peers p → s.1 ∉ d.set.servers)
    (hcut : Network.Cut p d.system.network)
    (hmore : Runs (step c) (fun d e => d.OnlyHeard e) d more d') :
    Network.Stalled p d.system.network d'.system.network := by
  obtain ⟨-, hlisted, hrouted, htold⟩ := reaches_started h hready hnext
  have hpeers : ∀ {n : Network}, Network.Told c (some d.set.disconnected) [] n →
      ∀ q ∈ c.peers p, (n.servers q).iAmDisconnected = true := by
    intro n htold q hq
    obtain ⟨hrange, -⟩ := Constants.mem_peers.mp hq
    have hs : ("S".toList ++ decimal q, q) ∈ c.serverIds :=
      Constants.mem_serverIds.mpr ⟨rfl, hrange⟩
    rw [hlisted.flag htold hs]
    simpa using halone _ hs hq
  have hkept : Network.Routed c d'.system.network ∧
      Network.Told c (some d.set.disconnected) [] d'.system.network ∧
        Network.Cut p d'.system.network ∧
          Network.Stalled p d.system.network d'.system.network := by
    refine runs_onlyHeard (I := fun σ => Network.Routed c σ.network ∧
      Network.Told c (some d.set.disconnected) [] σ.network ∧ Network.Cut p σ.network ∧
        Network.Stalled p d.system.network σ.network) hmore ⟨hrouted, htold, hcut, .refl _ _⟩ ?_
    intro σ a σ' ⟨hrouted, htold, hcut, hstalled⟩ hs hheard hother
    have hstep := System.step_stepped hs
    obtain ⟨hcut', hstalled'⟩ := System.Cut.step hcut hrouted (hpeers htold) hstep
    exact ⟨hstep.routed hrouted, System.Told.step htold hrouted hs hheard hother, hcut',
      hstalled.trans hstalled'⟩
  exact hkept.2.2.2

/-- Of the first cluster only the first server. -/
def sevenServers : Names where
  names := ['1', '4', '5', '6', '7', '8', '9'].map fun digit => ['S', digit]
  nonempty := by decide
  clean := by simp [IsNameChar]

def withoutPeers : WrittenSet := { twoTransfers with servers := sevenServers }

/-- The first transfer is issued, its leader asks both peers, and gives up. -/
def abandonedRun : List DriverEvent :=
  [.issue 7, .deliver 9 .allOpen, .deliver 10 .allOpen, .deliver 11 .allOpen,
    .complete 10 .ok .allOpen, .complete 11 .ok .allOpen, .deliver 9 .allOpen]

theorem reaches_stalled_abandonedRun : ∃ d d',
    run (step .standard) (init .standard (WrittenSet.write true false [withoutPeers])
      fun _ => .empty) startedRun = some d ∧
    run (step .standard) d abandonedRun = some d' ∧
    d'.system.network.Answered none 1 (.transfer ⟨⟨1, 2, 3⟩, 7⟩) (.transfer ⟨false, 7⟩) ∧
    Network.Stalled 1 d.system.network d'.system.network := by
  obtain ⟨d, hd, hchecked⟩ := (Option.any_eq_true _ _).mp
    (show (runIf (step .standard) (fun d e => d.Heard e)
      (init .standard (WrittenSet.write true false [withoutPeers]) fun _ => .empty) startedRun).any
      (fun d => decide (d.ready = true ∧ d.set.servers = sevenServers.names ∧
        d.todo = [.processTransaction ⟨1, 2, 3⟩ threeLeaders.names,
          .processTransaction ⟨2, 1001, 4⟩ threeLeaders.names] ∧
        ((d.system.network.servers 1).awaitAcceptDecision = false ∧
          (d.system.network.servers 1).awaitPrepareDecision = false ∧
          ∀ call ∈ d.system.network.calls, call.src ≠ some 1) ∧
        (runIf (step .standard) (fun d e => d.OnlyHeard e) d abandonedRun).any fun d' =>
          decide (∃ call ∈ d'.system.network.calls, call.src = none ∧ call.dst = 1 ∧
            call.request = .transfer ⟨⟨1, 2, 3⟩, 7⟩ ∧
            call.response = some (.transfer ⟨false, 7⟩)))) = true by decide +kernel)
  obtain ⟨hready, hset, htodo, ⟨hacc, hprep, hcalls⟩, hmore⟩ := of_decide_eq_true hchecked
  obtain ⟨d', hd', hanswered⟩ := (Option.any_eq_true _ _).mp hmore
  have hruns := runs_of_runIf hd
  have halone : ∀ s ∈ Constants.standard.serverIds, s.2 ∈ Constants.standard.peers 1 →
      s.1 ∉ d.set.servers := by
    rw [hset]
    decide
  have hcut : Network.Cut 1 d.system.network := by
    refine ⟨⟨hacc, fun hawait => ?_⟩, fun call hmem hsrc => absurd hsrc (hcalls call hmem)⟩
    rw [hprep] at hawait
    cases hawait
  exact ⟨d, d', hruns.run_eq, (runs_of_runIf hd').run_eq, of_decide_eq_true hanswered,
    reaches_stalled hruns hready htodo halone hcut (runs_of_runIf hd')⟩

end Driver
end TpcBank
