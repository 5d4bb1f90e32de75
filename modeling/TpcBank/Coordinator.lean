import TpcBank.Client
import TpcBank.Provenance

/-! What the client does to the network, and what it makes of the answers to its prepare
calls. -/
namespace TpcBank
open Decimal Transition

namespace System

variable {c : Constants} {σ σ' : System} {a : Action}

/-- The server that `leaders[cluster_id - 1]` names. -/
def leaderId (c : Constants) (leaders : List Text) (clusterId : ℤ) : Option ℤ :=
  (leaderOf leaders clusterId).bind fun name => c.serverIds.lookup name

/-- The requests that ask for something and change no log. -/
def Asks : Request → Prop
  | .disconnect _ | .balance _ | .logs => True
  | _ => False

/-- The reply that `consumeReplies` sees. -/
def replyOf (call : Call) (status : Status) : TransferRes :=
  if status = .ok then (call.response.getD .empty).toTransfer else {}

/-- The actions with what each one does. -/
inductive Stepped (c : Constants) (σ : System) : Action → System → Prop
  | intra (t : Transaction) (leaders : List Text) (tid leader : ℤ)
      (hsame : c.getClusterIdFromClientId t.sender = c.getClusterIdFromClientId t.receiver)
      (hleader : leaderId c leaders (c.getClusterIdFromClientId t.sender) = some leader) :
      Stepped c σ (.processTransaction t leaders tid)
        { σ with network := send σ.network [⟨leader, .transfer ⟨t, tid⟩⟩] }
  | cross (t : Transaction) (leaders : List Text) (tid leader leader' : ℤ)
      (hne : c.getClusterIdFromClientId t.sender ≠ c.getClusterIdFromClientId t.receiver)
      (hleader : leaderId c leaders (c.getClusterIdFromClientId t.sender) = some leader)
      (hleader' : leaderId c leaders (c.getClusterIdFromClientId t.receiver) = some leader') :
      Stepped c σ (.processTransaction t leaders tid)
        { network := send σ.network
            [⟨leader, .tpcPrepare ⟨t, tid⟩⟩, ⟨leader', .tpcPrepare ⟨t, tid⟩⟩]
          processing := Function.update σ.processing tid (some { txn := t }) }
  | asked (a : Action) (calls : List OutCall)
      (ha : ∀ t leaders tid, a ≠ .processTransaction t leaders tid)
      (hasks : ∀ o ∈ calls, 1 ≤ o.dst ∧ Asks o.request)
      (hends : ∀ i status fs, a ≠ .complete i status fs) :
      Stepped c σ a { σ with network := send σ.network calls }
  | delivered (i : ℕ) (fs : FileSystem) (n : Network)
      (h : σ.network.step c (.deliver i fs) = some n) :
      Stepped c σ (.deliver i fs) { σ with network := n }
  | consumed (i : ℕ) (status : Status) (fs : FileSystem) (call : Call) (request : TransferReq)
      (n : Network) (hcall : σ.network.calls[i]? = some call) (hsrc : call.src = none)
      (hrequest : call.request = .tpcPrepare request)
      (h : σ.network.step c (.complete i status fs) = some n) :
      Stepped c σ (.complete i status fs)
        { network := send n (consumeReply c σ.processing status (replyOf call status)).2
          processing := (consumeReply c σ.processing status (replyOf call status)).1 }
  | completed (i : ℕ) (status : Status) (fs : FileSystem) (call : Call) (n : Network)
      (hcall : σ.network.calls[i]? = some call)
      (hother : call.src = none → ∀ request, call.request ≠ .tpcPrepare request)
      (h : σ.network.step c (.complete i status fs) = some n) :
      Stepped c σ (.complete i status fs) { σ with network := n }

theorem asks_of_servers {servers : List (Text × ℤ)} (hsub : servers ⊆ c.serverIds)
    {request : Request} (hasks : Asks request) :
    ∀ o ∈ servers.map (fun s => (⟨s.2, request⟩ : OutCall)), 1 ≤ o.dst ∧ Asks o.request := by
  intro o ho
  obtain ⟨⟨name, id⟩, hmem, rfl⟩ := List.mem_map.mp ho
  exact ⟨(Constants.mem_serverIds.mp (hsub hmem)).2.1, hasks⟩

theorem step_stepped (h : step c σ a = some σ') : Stepped c σ a σ' := by
  cases a with
  | processTransaction t leaders tid =>
    simp only [step, processTransaction, Option.bind_eq_bind] at h
    obtain ⟨name, hname, h⟩ := Option.bind_eq_some_iff.mp h
    obtain ⟨leader, hleader, h⟩ := Option.bind_eq_some_iff.mp h
    obtain ⟨name', hname', h⟩ := Option.bind_eq_some_iff.mp h
    obtain ⟨leader', hleader', h⟩ := Option.bind_eq_some_iff.mp h
    have hl : leaderId c leaders (c.getClusterIdFromClientId t.sender) = some leader :=
      Option.bind_eq_some_iff.mpr ⟨name, hname, hleader⟩
    have hl' : leaderId c leaders (c.getClusterIdFromClientId t.receiver) = some leader' :=
      Option.bind_eq_some_iff.mpr ⟨name', hname', hleader'⟩
    split_ifs at h with hsame
    · cases h
      exact .intra t leaders tid leader hsame hl
    · cases h
      exact .cross t leaders tid leader leader' hsame hl hl'
  | updateDisconnected servers =>
    cases h
    exact .asked _ _ (by simp) (asks_of_servers (List.Subset.refl _) trivial) (by simp)
  | printBalance clientId =>
    cases h
    exact .asked _ _ (by simp) (asks_of_servers (List.filter_subset_self _) trivial) (by simp)
  | printDatastore =>
    cases h
    exact .asked _ _ (by simp) (asks_of_servers (List.Subset.refl _) trivial) (by simp)
  | deliver i fs =>
    obtain ⟨n, hn, h⟩ := Option.bind_eq_some_iff.mp h
    cases h
    exact .delivered i fs n hn
  | complete i status fs =>
    obtain ⟨call, hcall, h⟩ := Option.bind_eq_some_iff.mp h
    obtain ⟨n, hn, h⟩ := Option.bind_eq_some_iff.mp h
    split at h
    · rename_i request hsrc hrequest
      cases h
      exact .consumed i status fs call request n hcall hsrc hrequest hn
    · rename_i hother
      cases h
      exact .completed i status fs call n hcall (fun hsrc request hrequest =>
        hother request hsrc hrequest) hn

/-! ### The network under the client -/

theorem runs_send {P : Network → Event → Prop} (n : Network) (calls : List OutCall)
    (hcalls : ∀ o ∈ calls, o.request.fromClient = true ∧ ∀ m, P m (.call o.dst o.request)) :
    ∃ es, Runs (Network.step c) P n es (send n calls) := by
  induction calls generalizing n with
  | nil => exact ⟨[], by simpa [send] using Runs.refl⟩
  | cons o calls ih =>
    obtain ⟨hclient, hP⟩ := hcalls o List.mem_cons_self
    obtain ⟨es, hrest⟩ := ih (send n [o]) fun o ho => hcalls o (List.mem_cons_of_mem _ ho)
    have hfirst : n.step c (.call o.dst o.request) = some (send n [o]) := by
      simp [Network.step, hclient, send]
    have hcons : send (send n [o]) calls = send n (o :: calls) := by simp [send]
    rw [hcons] at hrest
    exact ⟨_, (Runs.single (hP n) hfirst).trans hrest⟩

theorem decisionCalls_request {isCommit : Bool} {tid : ℤ} {txn : Transaction} {o : OutCall}
    (ho : o ∈ decisionCalls c isCommit tid txn) : o.request = .decision isCommit ⟨tid⟩ := by
  obtain ⟨s, -, rfl⟩ := List.mem_map.mp ho
  rfl

theorem consumeReply_request {processing : ℤ → Option TpcPrepareRes} {status : Status}
    {reply : TransferRes} {o : OutCall} (ho : o ∈ (consumeReply c processing status reply).2) :
    ∃ isCommit, o.request = .decision isCommit ⟨reply.tid⟩ := by
  unfold consumeReply at ho
  dsimp only at ho
  split_ifs at ho
  · exact ⟨_, decisionCalls_request ho⟩
  · cases ho

/-- An action is a run of the network, whose Transfers and prepares the client has told
apart. -/
theorem Stepped.network_run (h : Stepped c σ a σ') :
    ∃ es, Runs (Network.step c) (fun _ e => (a.working → e.working) ∧ Network.Classified c e)
      σ.network es σ'.network := by
  cases h with
  | intra t leaders tid leader hsame =>
    refine runs_send _ _ fun o ho => ?_
    obtain rfl := List.mem_singleton.mp ho
    exact ⟨rfl, fun _ => ⟨fun _ => trivial, hsame⟩⟩
  | cross t leaders tid leader leader' hne =>
    refine runs_send _ _ fun o ho => ?_
    rcases List.mem_pair.mp ho with rfl | rfl <;> exact ⟨rfl, fun _ => ⟨fun _ => trivial, hne⟩⟩
  | asked a calls ha hasks =>
    refine runs_send _ _ fun o ho => ?_
    have hreq := (hasks o ho).2
    generalize o.request = request at hreq
    cases request <;> first | exact ⟨rfl, fun _ => ⟨fun _ => trivial, trivial⟩⟩ | cases hreq
  | delivered i fs n h => exact ⟨[.deliver i fs], .single ⟨id, trivial⟩ h⟩
  | completed i status fs call n hcall hother h =>
    exact ⟨[.complete i status fs], .single ⟨id, trivial⟩ h⟩
  | consumed i status fs call request n hcall hsrc hrequest h =>
    have hcalls : ∀ o ∈ (consumeReply c σ.processing status (replyOf call status)).2,
        o.request.fromClient = true ∧ ∀ m : Network,
          ((Action.complete i status fs).working → (Event.call o.dst o.request).working) ∧
            Network.Classified c (.call o.dst o.request) := by
      intro o ho
      obtain ⟨isCommit, hreq⟩ := consumeReply_request ho
      rw [hreq]
      cases isCommit <;> exact ⟨rfl, fun _ => ⟨fun _ => trivial, trivial⟩⟩
    obtain ⟨es, hsend⟩ := runs_send (c := c)
      (P := fun _ e => ((Action.complete i status fs).working → e.working) ∧
        Network.Classified c e) n _ hcalls
    exact ⟨.complete i status fs :: es, Runs.trans (.single ⟨id, trivial⟩ h) hsend⟩

/-- What every event of the network keeps is kept by every action. -/
theorem Stepped.network_invariant {I : Network → Prop} (h : Stepped c σ a σ')
    (hworking : a.working) (hI : I σ.network)
    (hstep : ∀ n e n', I n → e.working ∧ Network.Classified c e → Network.Stepped c n e n' → I n') :
    I σ'.network := by
  obtain ⟨es, hrun⟩ := h.network_run
  exact hrun.invariant hI fun n e n' hn hP hs =>
    hstep n e n' hn ⟨hP.1 hworking, hP.2⟩ (Network.step_stepped hs)

theorem Stepped.provenance (h : Stepped c σ a σ') (hworking : a.working)
    (hprov : Network.Provenance c σ.network) : Network.Provenance c σ'.network :=
  h.network_invariant hworking hprov fun _ _ _ hn hP hs => hn.step hs hP.1 hP.2

theorem Stepped.routed (h : Stepped c σ a σ') (hrouted : Network.Routed c σ.network) :
    Network.Routed c σ'.network := by
  obtain ⟨es, hrun⟩ := h.network_run
  exact hrun.invariant hrouted fun _ _ _ hn _ hs => hn.step (Network.step_stepped hs)

/-- Calls stay in the table, and a response stays what it is. -/
theorem Stepped.later (h : Stepped c σ a σ') {j : ℕ} {b : Call}
    (hj : σ.network.calls[j]? = some b) :
    ∃ b', σ'.network.calls[j]? = some b' ∧ Network.Later b b' := by
  obtain ⟨es, hrun⟩ := h.network_run
  refine hrun.invariant (I := fun n => ∃ b', n.calls[j]? = some b' ∧ Network.Later b b')
    ⟨b, hj, .refl b⟩ ?_
  rintro n e n' ⟨b', hb', hlater⟩ - hs
  obtain ⟨b'', hb'', hlater'⟩ := (Network.step_stepped hs).later hb'
  exact ⟨b'', hb'', hlater.trans hlater'⟩

end System
end TpcBank
