import TpcBank.Books
import TpcBank.TwoPhaseCommit

/-! Conservation of money: one server of every cluster, chosen so that the two clusters of a
cross-shard transaction have committed it equally often, hold what the bank started with. -/
namespace TpcBank
open Decimal Ledger Transition

namespace Network

variable {c : Constants} {n n' : Network} {e : Event}

theorem sent_client_step (hstep : n.step c e = some n') (he : ∀ dst request, e ≠ .call dst request)
    {dst : ℤ} {request : Request} (hs : n'.Sent none dst request) : n.Sent none dst request := by
  rcases (step_stepped hstep).client_before hs with hold | ⟨rfl, -⟩
  · exact hold
  · exact absurd rfl (he dst request)

end Network

/-- How many `COMMITTED` `CROSS` entries a log has for a tid. -/
def crossCommits (log : List WALEntry) (tid : ℤ) : ℕ :=
  log.countP fun e => e.type = .cross ∧ e.status = .committed ∧ e.tid = tid

/-- The client of a transaction is one of the bank. -/
def IsClient (x : ℤ) : Prop := 1 ≤ x ∧ x ≤ totalClients

/-- A transaction between clients of the bank, issued at a positive time. -/
def TransferReq.Proper (r : TransferReq) : Prop :=
  0 < r.tid ∧ IsClient r.txn.sender ∧ IsClient r.txn.receiver

def Action.proper : Action → Prop
  | .processTransaction t _ tid => TransferReq.Proper ⟨t, tid⟩
  | _ => True

namespace System

variable {c : Constants} {as : List Action} {σ σ' : System} {a : Action}

/-- What conservation rests on: the client sent proper transactions only, and the servers keep
their balances. -/
structure Banked (c : Constants) (as : List Action) (σ : System) : Prop where
  coordinated : Coordinated c as σ
  provenance : Network.Provenance c σ.network
  booked : Network.Booked c σ.network
  proper : ∀ dst isCrossShard r, σ.network.Sent none dst (.poll isCrossShard r) → r.Proper

theorem sent_send {n : Network} {calls : List OutCall} {dst : ℤ} {request : Request}
    (h : (send n calls).Sent none dst request) :
    n.Sent none dst request ∨ ⟨dst, request⟩ ∈ calls := by
  obtain ⟨call, hmem, hsrc, rfl, rfl⟩ := h
  rcases List.mem_append.mp hmem with hold | hnew
  · exact .inl ⟨call, hold, hsrc, rfl, rfl⟩
  · obtain ⟨o, ho, rfl⟩ := List.mem_map.mp hnew
    exact .inr ho

/-- The polls that the client sends in one action. -/
theorem Stepped.sent_poll (h : Stepped c σ a σ') {dst : ℤ} {isCrossShard : Bool} {r : TransferReq}
    (hs : σ'.network.Sent none dst (.poll isCrossShard r)) :
    σ.network.Sent none dst (.poll isCrossShard r) ∨
      ∃ leaders, a = .processTransaction r.txn leaders r.tid := by
  have hpoll : ∀ {x : Bool} {r' : TransferReq}, Request.poll isCrossShard r = .poll x r' → r = r' := by
    intro x r' heq
    simpa using congrArg Request.polled heq
  cases h with
  | intra t leaders tid leader =>
    rcases sent_send hs with hold | hnew
    · exact .inl hold
    · have hr := hpoll (x := false) (OutCall.mk.inj (List.mem_singleton.mp hnew)).2
      subst hr
      exact .inr ⟨leaders, rfl⟩
  | cross t leaders tid leader leader' =>
    rcases sent_send hs with hold | hnew
    · exact .inl hold
    · have hr : r = ⟨t, tid⟩ := by
        rcases List.mem_pair.mp hnew with heq | heq <;>
          exact hpoll (x := true) (OutCall.mk.inj heq).2
      subst hr
      exact .inr ⟨leaders, rfl⟩
  | asked a calls ha hasks =>
    rcases sent_send hs with hold | hnew
    · exact .inl hold
    · have hask := (hasks _ hnew).2
      cases isCrossShard <;> exact hask.elim
  | delivered i fs n hn => exact .inl (Network.sent_client_step hn nofun hs)
  | completed i status fs call n hcall hother hn =>
    exact .inl (Network.sent_client_step hn nofun hs)
  | consumed i status fs call request n hcall hsrc hrequest hn =>
    rcases sent_send hs with hold | hnew
    · exact .inl (Network.sent_client_step hn nofun hold)
    · obtain ⟨x, hx⟩ := consumeReply_request hnew
      cases x <;> cases isCrossShard <;> cases hx

theorem Banked.step (h : Banked c as σ) (hstep : Stepped c σ a σ') (hworking : a.working)
    (hfresh : FreshTid c σ a) (hproper : a.proper) : Banked c (as ++ [a]) σ' where
  coordinated := h.coordinated.step hstep hfresh
  provenance := hstep.provenance hworking h.provenance
  booked := by
    have hboth := hstep.network_invariant
      (I := fun n => Network.Provenance c n ∧ Network.Booked c n) hworking
      ⟨h.provenance, h.booked⟩
      fun _ _ _ hn hP hs => ⟨hn.1.step hs hP.1 hP.2, hn.2.step hn.1 hs hP.1⟩
    exact hboth.2
  proper := by
    intro dst x r hs
    rcases hstep.sent_poll hs with hold | ⟨leaders, rfl⟩
    · exact h.proper dst x r hold
    · exact hproper

theorem reaches_banked {disk : ℤ → Disk}
    (h : Reaches c (fun σ a => a.working ∧ FreshTid c σ a ∧ a.proper) disk as σ) :
    Banked c as σ := by
  induction h with
  | refl =>
    refine ⟨coordinated_init c disk, Network.provenance_init c disk, fun _ x _ => replayed_init c x (disk x), ?_⟩
    rintro dst x r ⟨call, hmem, -⟩
    cases hmem
  | snoc _ hguard hstep ih =>
    exact ih.step (step_stepped hstep) hguard.1 hguard.2.1 hguard.2.2

namespace Banked

variable {x : ℤ} {e : WALEntry}

/-- A log entry is of a proper transaction, and a cross-shard one is of clients of two
clusters. -/
theorem entry (h : Banked c as σ) (hx : 0 < x) (he : e ∈ (σ.network.servers x).log) :
    e.request.Proper ∧ (e.type = .cross ↔
      c.getClusterIdFromClientId e.txn.sender ≠ c.getClusterIdFromClientId e.txn.receiver) := by
  obtain ⟨dst, -, hs⟩ := (h.provenance.logs x (c.clusterIdFromServerId_pos hx) e he).issued
  refine ⟨h.proper dst _ _ hs, ?_⟩
  have hclassified := h.provenance.classified dst _ _ hs
  rw [ne_eq, hclassified]
  simp

/-- Two cross-shard entries under one tid are of one transaction, wherever they are. -/
theorem txn_unique (h : Banked c as σ) {y : ℤ} {e' : WALEntry} (hx : 0 < x) (hy : 0 < y)
    (he : e ∈ (σ.network.servers x).log) (he' : e' ∈ (σ.network.servers y).log)
    (htype : e.type = .cross) (htype' : e'.type = .cross) (htid : e.tid = e'.tid) :
    e.txn = e'.txn := by
  obtain ⟨i, a, b, hp⟩ := h.coordinated.pair_of_entry h.provenance hx he htype
  obtain ⟨i', a', b', hp'⟩ := h.coordinated.pair_of_entry h.provenance hy he' htype'
  obtain ⟨-, rfl, -⟩ := h.coordinated.pair_unique hp hp' htid
  have hsame := Request.tpcPrepare.inj (hp.prepares.1.symm.trans hp'.prepares.1)
  exact congrArg TransferReq.txn hsame

/-- In every log the committed entries of a cross-shard transaction are those of its tid. -/
theorem count_committedRequests (h : Banked c as σ) {y : ℤ} (hx : 0 < x) (hy : 0 < y)
    (he : e ∈ (σ.network.servers x).log) (htype : e.type = .cross) :
    (committedRequests (σ.network.servers y).log).count e.request =
      crossCommits (σ.network.servers y).log e.tid := by
  unfold committedRequests crossCommits
  rw [List.count, List.countP_map, List.countP_filter]
  apply List.countP_congr
  intro e' he'
  simp only [Function.comp_apply, beq_iff_eq, Bool.and_eq_true, decide_eq_true_eq]
  constructor
  · rintro ⟨hrequest, hstatus⟩
    have htxn : e'.txn = e.txn := congrArg TransferReq.txn hrequest
    have htid : e'.tid = e.tid := congrArg TransferReq.tid hrequest
    refine ⟨?_, hstatus, htid⟩
    rw [(h.entry hy he').2, htxn]
    exact (h.entry hx he).2.mp htype
  · rintro ⟨htype', hstatus, htid⟩
    have htxn := h.txn_unique hy hx he' he htype' htype htid
    exact ⟨by rw [WALEntry.request, WALEntry.request, htxn, htid], hstatus⟩

end Banked

/-- For every cross-shard transaction that the client issued, the chosen servers of its two
clusters hold equally many `COMMITTED` entries. -/
def Matched (c : Constants) (as : List Action) (σ : System) (choice : ℤ → ℤ) : Prop :=
  ∀ t leaders tid, .processTransaction t leaders tid ∈ as →
    c.getClusterIdFromClientId t.sender ≠ c.getClusterIdFromClientId t.receiver →
      crossCommits (σ.network.servers (choice (c.getClusterIdFromClientId t.sender))).log tid =
        crossCommits (σ.network.servers (choice (c.getClusterIdFromClientId t.receiver))).log tid

/-- The total of the balances that the chosen servers keep for the clients of their clusters. -/
noncomputable def total (c : Constants) (σ : System) (choice : ℤ → ℤ) : ℤ :=
  ∑ k ∈ Finset.Icc 1 c.numClusters,
    ∑ x ∈ Finset.Icc 1 totalClients with c.getClusterIdFromClientId x = k,
      (σ.network.servers (choice k)).balances x

/-- Money is conserved in every run in which file operations succeed, clients are clients of the
bank and cross-shard transactions have distinct tids, whatever servers the leaders name. -/
theorem reaches_total {disk : ℤ → Disk}
    (h : Reaches c (fun σ a => a.working ∧ FreshTid c σ a ∧ a.proper) disk as σ) {choice : ℤ → ℤ}
    (hchoice : ∀ k ∈ Finset.Icc 1 c.numClusters, c.getClusterIdFromServerId (choice k) = k)
    (hmatched : Matched c as σ choice) : σ.total c choice = 10 * totalClients := by
  have hbanked := reaches_banked h
  have htimed : σ.network.Timed := fun dst x r hs => (hbanked.proper dst x r hs).1
  have hserver : ∀ k ∈ Finset.Icc 1 c.numClusters, 0 < choice k := by
    intro k hk
    rw [← ceilDiv_pos_iff c.clusterSize_pos]
    have hcluster : ceilDiv (choice k) c.clusterSize = k := hchoice k hk
    rw [hcluster]
    exact (Finset.mem_Icc.mp hk).1
  have hclient : ∀ x ∈ Finset.Icc 1 totalClients,
      c.getClusterIdFromClientId x ∈ Finset.Icc 1 c.numClusters := by
    intro x hx
    obtain ⟨hlow, hhigh⟩ := Finset.mem_Icc.mp hx
    exact Finset.mem_Icc.mpr (c.clusterIdFromClientId_mem hlow hhigh)
  have hbalance : ∀ k ∈ Finset.Icc 1 c.numClusters,
      ∀ x ∈ (Finset.Icc 1 totalClients).filter fun x => c.getClusterIdFromClientId x = k,
        (σ.network.servers (choice k)).balances x = 10 + net ((committedRequests
          (σ.network.servers (choice k)).log).map TransferReq.posting) x := by
    intro k hk x hx
    obtain ⟨hx, hcluster⟩ := Finset.mem_filter.mp hx
    obtain ⟨hlow, hhigh⟩ := Finset.mem_Icc.mp hx
    have hpos : 0 < c.getClusterIdFromServerId (choice k) :=
      c.clusterIdFromServerId_pos (hserver k hk)
    have hreplayed := hbanked.booked htimed (choice k) hpos
    rw [hchoice k hk] at hreplayed
    rw [← committed_eq_map]
    exact hreplayed.balances x ⟨hlow, hhigh, hcluster⟩
  have hnet := sum_net_branches (Finset.Icc 1 c.numClusters) (Finset.Icc 1 totalClients)
    c.getClusterIdFromClientId TransferReq.posting
    (fun k => committedRequests (σ.network.servers (choice k)).log) hclient ?_ ?_
  · unfold total
    rw [Finset.sum_congr rfl fun k hk => Finset.sum_congr rfl (hbalance k hk)]
    simp only [Finset.sum_add_distrib]
    rw [hnet, add_zero, Finset.sum_fiberwise_of_maps_to hclient]
    simp [totalClients]
  · intro k hk request hrequest
    obtain ⟨e, he, rfl⟩ := List.mem_map.mp hrequest
    obtain ⟨-, hsender, hreceiver⟩ := (hbanked.entry (hserver k hk) (List.mem_of_mem_filter he)).1
    exact ⟨Finset.mem_Icc.mpr hsender, Finset.mem_Icc.mpr hreceiver⟩
  · intro k hk request hrequest hne
    obtain ⟨e, he, rfl⟩ := List.mem_map.mp hrequest
    have hmem := List.mem_of_mem_filter he
    obtain ⟨⟨-, hsender, hreceiver⟩, htype⟩ := hbanked.entry (hserver k hk) hmem
    have hcross := htype.mpr hne
    obtain ⟨i, a, b, hp⟩ := hbanked.coordinated.pair_of_entry hbanked.provenance (hserver k hk) hmem hcross
    obtain ⟨leaders, hissued, -⟩ := hp.contacted
    have hcount : ∀ x, IsClient x → (committedRequests (σ.network.servers
        (choice (c.getClusterIdFromClientId x))).log).count e.request = crossCommits
          (σ.network.servers (choice (c.getClusterIdFromClientId x))).log e.tid := by
      intro x hx
      exact hbanked.count_committedRequests (hserver k hk)
        (hserver _ (hclient x (Finset.mem_Icc.mpr hx))) hmem hcross
    exact (hcount _ hsender).trans ((hmatched _ leaders _ hissued hne).trans
      (hcount _ hreceiver).symm)

/-- The first server of a cluster of three. -/
def firstServer (clusterId : ℤ) : ℤ := 3 * clusterId - 2

theorem total_committedRun :
    ∃ σ, run (step .standard) (init .standard fun _ => .empty) committedRun = some σ ∧
      (σ.network.servers 1).balances 1 = 7 ∧ (σ.network.servers 4).balances 1001 = 13 ∧
      σ.total .standard firstServer = 10 * totalClients := by
  obtain ⟨σ, hσ, hcheck⟩ := (Option.any_eq_true _ _).mp
    (show (runIf (step .standard) (FreshTid .standard) (init .standard fun _ => .empty)
      committedRun).any (fun σ => decide ((σ.network.servers 1).balances 1 = 7 ∧
        (σ.network.servers 4).balances 1001 = 13 ∧ crossCommits (σ.network.servers 1).log 7 =
          crossCommits (σ.network.servers 4).log 7)) = true by decide +kernel)
  obtain ⟨hpaid, hreceived, hequal⟩ := of_decide_eq_true hcheck
  have hfresh := runs_of_runIf hσ
  have hguard : Runs (step .standard) (fun _ a => a.working ∧ a.proper)
      (init .standard fun _ => .empty) committedRun σ := by
    refine runs_of_forall (P := fun a => a.working ∧ a.proper) hfresh.run_eq ?_
    simp [committedRun, Action.arrives, Action.returns, Action.working, Action.proper,
      FileSystem.allOpen_working, TransferReq.Proper, IsClient, totalClients]
  refine ⟨σ, hfresh.run_eq, hpaid, hreceived, reaches_total
    ((hguard.and hfresh).mono fun _ _ h => ⟨h.1.1, h.2, h.1.2⟩) (by decide +kernel) ?_⟩
  intro t leaders tid hissued _
  have hfirst : t = ⟨1, 1001, 3⟩ ∧ tid = 7 := by
    simp [committedRun, Action.arrives, Action.returns] at hissued
    exact ⟨hissued.1, hissued.2.2⟩
  obtain ⟨rfl, rfl⟩ := hfirst
  exact hequal

end System
end TpcBank
