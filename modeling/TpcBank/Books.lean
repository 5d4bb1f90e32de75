import TpcBank.Provenance
import TpcBank.Replay

/-! The books of the whole network: in every server that a run reaches, the balances are the
replay of the log, because the tids that the messages bring go back to the client. -/
namespace TpcBank
open Decimal Ledger Transition

/-- The request that an entry of the log goes back to. -/
def WALEntry.request (e : WALEntry) : TransferReq := ⟨e.txn, e.tid⟩

def TransferReq.posting (r : TransferReq) : Posting ℤ ℤ :=
  ⟨r.txn.sender, r.txn.receiver, r.txn.amount⟩

/-- The requests behind the committed entries. -/
def committedRequests (log : List WALEntry) : List TransferReq :=
  (log.filter fun e => e.status = .committed).map WALEntry.request

theorem committed_eq_map (log : List WALEntry) :
    committed log = (committedRequests log).map TransferReq.posting := by
  simp only [committed, committedRequests, List.map_map]
  rfl

namespace Network

variable {c : Constants} {n n' : Network} {e : Event}

/-- Every transaction that the client sent has a positive tid. -/
def Timed (n : Network) : Prop :=
  ∀ dst isCrossShard r, n.Sent none dst (.poll isCrossShard r) → 0 < r.tid

/-- In the servers of every cluster the balances are the replay of the log. -/
def Booked (c : Constants) (n : Network) : Prop :=
  n.Timed → ∀ x, 0 < c.getClusterIdFromServerId x →
    Replayed c (c.getClusterIdFromServerId x) (n.servers x).data

theorem Provenance.tidsPositive (h : Provenance c n) (htimed : n.Timed) {p : ℤ} {fs : FileSystem}
    {input : Input} (hacts : Acts n e p fs input) (hpos : 0 < c.getClusterIdFromServerId p) :
    input.tidsPositive := by
  have hpoll : ∀ {x : Bool} {request : TransferReq}, input = .request (.poll x request) →
      0 < request.tid := by
    intro x request hinput
    obtain ⟨dst, -, hs⟩ := h.issued_poll hacts x hinput
    exact htimed dst x request hs
  unfold Input.tidsPositive
  split
  · rename_i request
    unfold Request.tidsPositive
    split
    · exact hpoll (x := true) rfl
    · exact hpoll (x := false) rfl
    · obtain ⟨x, dst, -, hs⟩ := h.issued_accept hacts rfl
      exact htimed dst x _ hs
    · trivial
  · intro entry hentry
    obtain ⟨dst, -, hs⟩ := (h.vouched_sync hacts rfl hpos entry hentry).issued
    exact htimed dst _ _ hs
  · trivial

theorem Booked.step (h : Booked c n) (hprov : Provenance c n) (hstep : Stepped c n e n')
    (hworking : e.working) : Booked c n' := by
  intro htimed
  have hold : n.Timed := fun dst x r hs => htimed dst x r (hs.step hstep)
  refine hstep.server_invariant (I := fun x s => 0 < c.getClusterIdFromServerId x →
    Replayed c (c.getClusterIdFromServerId x) s.data) (h hold) ?_
  intro id fs input r hacts hr hpos
  have hid := hprov.routed.clusterId id
  have hreplayed := h hold id hpos
  rw [← hid] at hreplayed hpos ⊢
  exact hr.replayed hreplayed hpos (hacts.working hworking)
    (hprov.tidsPositive hold hacts (hid ▸ hpos))

end Network
end TpcBank
