import TpcBank.LogSlots
import TpcBank.Quorums

/-! What an acknowledged Prepare says about the states of the two servers. The comparison of
`last_inserted` is one of the transfers inside the cluster as long as no position of the log is
used for two of them; the cross-shard transactions it does not see, so that a decision that one
server of the cluster misses, or handles while its Prepare is on the way, goes unnoticed. -/
namespace TpcBank
open Decimal Ledger Transition

/-- The requests of the client carry positive tids. -/
def Event.tidsPositive : Event → Prop
  | .call _ request => request.tidsPositive
  | _ => True

def Request.isDecision : Request → Bool
  | .tpcCommit _ | .tpcAbort _ => true
  | _ => false

/-- The Prepare is acknowledged. -/
def Server.acknowledges (s : Server) (request : PrepareReq) : Bool :=
  match (s.processPrepareCall request).response with
  | some (.prepare response) => response.ack
  | _ => false

def Request.isPrepare : Request → Bool
  | .prepare _ => true
  | _ => false

/-- The request does not give the tid of a cross-shard transaction to another one. -/
def Request.agrees (r : TransferReq) : Request → Prop
  | .tpcPrepare r' => r'.tid = r.tid → r'.txn = r.txn
  | _ => True

instance (r : TransferReq) (request : Request) : Decidable (request.agrees r) := by
  unfold Request.agrees
  split <;> infer_instance

namespace Network

variable {c : Constants} {n n' : Network} {e : Event} {disk : ℤ → Disk} {es : List Event}

/-- The state in which the call at a position was started. -/
def whenSent (c : Constants) (disk : ℤ → Disk) (es : List Event) (i : ℕ) : Option Network :=
  firstWith (step c) (fun n => i < n.calls.length) (init c disk) es

/-- A decision that was sent to a server has not reached it yet. -/
def Undelivered (n : Network) (id : ℤ) : Prop :=
  ∃ call ∈ n.calls, call.dst = id ∧ call.response = none ∧ call.request.isDecision = true

/-- After some events a Prepare of `p`, sent in the state `origin`, is acknowledged by `f` when
it arrives, and no decision is in flight to either. -/
structure Promises (c : Constants) (disk : ℤ → Disk) (es : List Event) (n : Network) (i : ℕ)
    (p f : ℤ) (origin : Network) : Prop where
  pending : ∃ request completed,
    n.calls[i]? = some ⟨some p, f, .prepare request, none, completed⟩ ∧
      (n.servers f).acknowledges request = true
  sent : whenSent c disk es i = some origin
  quiet : ¬ n.Undelivered p ∧ ¬ n.Undelivered f

/-- Whenever a Prepare is acknowledged, the balances of the follower are those that the
proposer had when it sent the Prepare. -/
def StateMatch (c : Constants) (disk : ℤ → Disk) (es : List Event) (n : Network) : Prop :=
  ∀ i p f origin, Promises c disk es n i p f origin →
    ∀ x, c.IsClientOf (c.getClusterIdFromServerId f) x →
      (n.servers f).balances x = (origin.servers p).balances x

/-! ### The condition -/

/-- The client gives a tid to one cross-shard transaction. -/
def SingleUse (n : Network) : Event → Prop
  | .call _ (.tpcPrepare r) => ∀ call ∈ n.calls, call.request.agrees r
  | _ => True

instance (n : Network) (e : Event) : Decidable (n.SingleUse e) := by
  unfold SingleUse
  split <;> infer_instance

/-- The decision to commit is on its way to a server. -/
def Awaits (n : Network) (id tid : ℤ) : Prop :=
  ∃ call ∈ n.calls, call.dst = id ∧ call.response = none ∧ call.request = .tpcCommit ⟨tid⟩

instance (n : Network) (id tid : ℤ) : Decidable (n.Awaits id tid) :=
  inferInstanceAs (Decidable (∃ call ∈ n.calls, _))

/-- A Prepare of a server is on its way. -/
def AsksPromise (n : Network) (id : ℤ) : Prop :=
  ∃ call ∈ n.calls, call.src = some id ∧ call.response = none ∧ call.request.isPrepare = true

instance (n : Network) (id : ℤ) : Decidable (n.AsksPromise id) :=
  inferInstanceAs (Decidable (∃ call ∈ n.calls, _))

/-- At the positions that a handler moves `last_inserted` over, the other servers of the cluster
that have come so far hold the same transfer, or none either. -/
def SlotsFit (c : Constants) (n : Network) (id : ℤ) (input : Input) : Prop :=
  ∀ appended ∈ (n.servers id).covering c input, ∀ y ∈ c.peers id,
    ∀ k < (slots (n.servers id).log ++ appended).length, (n.servers id).lastInserted < k →
      (k : ℤ) ≤ (n.servers y).lastInserted →
        (slots (n.servers id).log ++ appended)[k]? = (slots (n.servers y).log)[k]?

instance (c : Constants) (n : Network) (id : ℤ) (input : Input) :
    Decidable (n.SlotsFit c id input) :=
  inferInstanceAs (Decidable (∀ appended ∈ (n.servers id).covering c input, _))

/-- A server commits a cross-shard transaction once, and not while a Prepare of it is on its way. -/
def SettlesOnce (n : Network) (id : ℤ) (input : Input) : Prop :=
  ((n.servers id).settling input).Nodup ∧
    (∀ tid ∈ (n.servers id).settling input, tid ∉ crossTids (n.servers id).log) ∧
    ((n.servers id).settling input ≠ [] → ¬ n.AsksPromise id)

instance (n : Network) (id : ℤ) (input : Input) : Decidable (n.SettlesOnce id input) :=
  inferInstanceAs (Decidable (_ ∧ _))

/-- A decision to commit that is obeyed has been obeyed by the other servers of the cluster, or is
on its way to them; one that is ignored was obeyed by none. -/
def DecidedByAll (c : Constants) (n : Network) (id : ℤ) : Input → Prop
  | .request (.tpcCommit request) => ∀ y ∈ c.peers id,
      (request.tid ∈ (n.servers id).settling (.request (.tpcCommit request)) →
        request.tid ∈ crossTids (n.servers y).log ∨ n.Awaits y request.tid) ∧
      (request.tid ∈ crossTids (n.servers y).log →
        request.tid ∈ crossTids (n.servers id).log ++
          (n.servers id).settling (.request (.tpcCommit request)))
  | _ => True

instance (c : Constants) (n : Network) (id : ℤ) (input : Input) :
    Decidable (n.DecidedByAll c id input) := by
  unfold DecidedByAll
  split <;> infer_instance

/-- A handler that keeps the states of a cluster together. -/
def HandlesMatched (c : Constants) (n : Network) (id : ℤ) (input : Input) : Prop :=
  (n.servers id).SyncsAtEnd input ∧ n.SlotsFit c id input ∧ n.SettlesOnce id input ∧
    n.DecidedByAll c id input

instance (c : Constants) (n : Network) (id : ℤ) (input : Input) :
    Decidable (n.HandlesMatched c id input) :=
  inferInstanceAs (Decidable (_ ∧ _ ∧ _ ∧ _))

/-- An event that keeps the states of a cluster together. -/
def StaysMatched (c : Constants) (n : Network) (e : Event) : Prop :=
  n.SingleUse e ∧ ∀ a ∈ acting n e, n.HandlesMatched c a.1 a.2.2

instance (c : Constants) (n : Network) (e : Event) : Decidable (StaysMatched c n e) :=
  inferInstanceAs (Decidable (_ ∧ ∀ a ∈ acting n e, _))

/-! ### Replayed logs -/

/-- The client tells intra- and cross-shard transactions apart and gives them positive tids. -/
def Regular (c : Constants) (e : Event) : Prop :=
  e.working ∧ Classified c e ∧ e.tidsPositive

theorem Timed.step (h : n.Timed) (hstep : n.step c e = some n') (hpos : e.tidsPositive) :
    n'.Timed := by
  intro dst x r hs
  rcases (step_stepped hstep).client_before hs with hold | ⟨rfl, -⟩
  · exact h dst x r hold
  · cases x <;> exact hpos

theorem booked_init (c : Constants) (disk : ℤ → Disk) : Booked c (init c disk) :=
  fun _ x _ => replayed_init c x (disk x)

theorem reaches_booked (h : Reaches c (fun _ e => Regular c e) disk es n) :
    Provenance c n ∧ Booked c n ∧ n.Timed := by
  refine h.invariant (I := fun n => Provenance c n ∧ Booked c n ∧ n.Timed)
    ⟨provenance_init c disk, booked_init c disk, ?_⟩ ?_
  · rintro dst y r ⟨call, hmem, -⟩
    cases hmem
  · rintro n e n' ⟨hprov, hbooked, htimed⟩ ⟨hworking, hclassified, hpos⟩ hstep
    have hs := step_stepped hstep
    exact ⟨hprov.step hs hworking hclassified, hbooked.step hprov hs hworking,
      htimed.step hstep hpos⟩

/-- In every run the balances of every server are the replay of its log. -/
theorem reaches_replayed (h : Reaches c (fun _ e => Regular c e) disk es n) {x : ℤ} (hx : 1 ≤ x) :
    Replayed c (c.getClusterIdFromServerId x) (n.servers x).data := by
  obtain ⟨-, hbooked, htimed⟩ := reaches_booked h
  exact hbooked htimed x (c.clusterIdFromServerId_pos hx)

/-- Every entry in a log has a positive tid. -/
theorem reaches_positive (h : Reaches c (fun _ e => Regular c e) disk es n) {x : ℤ} (hx : 1 ≤ x)
    {e : WALEntry} (he : e ∈ (n.servers x).log) : 0 < e.tid := by
  obtain ⟨hprov, -, htimed⟩ := reaches_booked h
  obtain ⟨dst, -, hs⟩ := (hprov.logs x (c.clusterIdFromServerId_pos hx) e he).issued
  exact htimed dst _ _ hs

/-! ### The invariant -/

/-- What the servers of a cluster keep: a transfer stands at one position of all logs, and the
cross-shard transactions that one server has committed come to all. -/
structure Matched (c : Constants) (n : Network) : Prop where
  index : ∀ id, (n.servers id).IndexInLog
  beyond : ∀ id, ∀ k : ℕ, (n.servers id).lastInserted < k →
    ∀ a ∈ (slots (n.servers id).log)[k]?, a = none
  slots : ∀ x y, y ∈ c.peers x → ∀ k : ℕ, (k : ℤ) ≤ (n.servers x).lastInserted →
    (k : ℤ) ≤ (n.servers y).lastInserted →
      (slots (n.servers x).log)[k]? = (TpcBank.slots (n.servers y).log)[k]?
  once : ∀ id, (crossTids (n.servers id).log).Nodup
  shared : ∀ x y, y ∈ c.peers x → ∀ tid ∈ crossTids (n.servers x).log,
    tid ∈ crossTids (n.servers y).log ∨ n.Awaits y tid
  syncs : ∀ src id q res, n.Answered src id (.sync q) (.sync res) →
    ∀ entry ∈ res.logs, Server.fromLogEntry entry ∈ (n.servers id).log
  single : ∀ dst dst' r r', n.Sent none dst (.tpcPrepare r) → n.Sent none dst' (.tpcPrepare r') →
    r.tid = r'.tid → r.txn = r'.txn

theorem matched_init (c : Constants) (disk : ℤ → Disk) : Matched c (init c disk) where
  index := fun _ => ⟨le_rfl, le_rfl⟩
  beyond := by
    intro id k _ a ha
    simp [init, Server.init, TpcBank.slots] at ha
  slots := fun _ _ _ _ _ _ => rfl
  once := fun _ => List.nodup_nil
  shared := by
    intro x y _ tid htid
    cases htid
  syncs := by
    rintro src id q res ⟨call, hmem, -⟩
    cases hmem
  single := by
    rintro dst dst' r r' ⟨call, hmem, -⟩
    cases hmem

/-! ### One event -/

variable {x y : ℤ} {fs : FileSystem} {input : Input}

/-- A decision that is on its way stays so, or it arrives. -/
theorem Awaits.step {tid : ℤ} (h : n.Awaits x tid) (hstep : Stepped c n e n') :
    n'.Awaits x tid ∨ ∃ fs, Acts n e x fs (.request (.tpcCommit ⟨tid⟩)) := by
  obtain ⟨call, hmem, rfl, hnew, hrequest⟩ := h
  obtain ⟨j, hj⟩ := List.mem_iff_getElem?.mp hmem
  obtain ⟨call', hj', hlater⟩ := hstep.later hj
  cases hres : call'.response with
  | none =>
    exact .inl ⟨call', List.mem_of_getElem? hj', hlater.dst, hres, hlater.request.trans hrequest⟩
  | some res =>
    obtain ⟨fs, r, hacts, -⟩ := hstep.acts_answered hj hj' hnew (by rw [hres]; rfl)
    rw [hrequest] at hacts
    exact .inr ⟨fs, hacts⟩

theorem crossTids_grows (hstep : Stepped c n e n') (id : ℤ) :
    crossTids (n.servers id).log ⊆ crossTids (n'.servers id).log := by
  obtain ⟨new, hnew⟩ := hstep.log_grows id
  rw [← hnew, crossTids_append]
  exact List.subset_append_left _ _

namespace Matched

theorem syncs_step (h : Matched c n) (hstep : Stepped c n e n') {src : Option ℤ} {id : ℤ}
    {q : SyncReq} {res : SyncRes} (ha : n'.Answered src id (.sync q) (.sync res)) :
    ∀ entry ∈ res.logs, Server.fromLogEntry entry ∈ (n'.servers id).log := by
  intro entry hentry
  apply (hstep.log_grows id).subset
  rcases hstep.answered_before ha with hold | ⟨fs, r, hacts, hr, -, -, hres⟩
  · exact h.syncs src id q res hold entry hentry
  · generalize hinput : Input.request (.sync q) = input at hr
    cases hr with
    | idle _ response hplain => cases hplain _ hres
    | answered request =>
      obtain rfl : _ = res := by simpa using hres
      exact Server.mem_processSyncCall hentry
    | _ => cases hres

theorem single_step (h : Matched c n) (hstep : Stepped c n e n') (huse : n.SingleUse e)
    {dst dst' : ℤ} {r r' : TransferReq} (hs : n'.Sent none dst (.tpcPrepare r))
    (hs' : n'.Sent none dst' (.tpcPrepare r')) (htid : r.tid = r'.tid) : r.txn = r'.txn := by
  have hnew : ∀ {dst dst' : ℤ} {r r' : TransferReq}, e = .call dst (.tpcPrepare r) →
      n.Sent none dst' (.tpcPrepare r') → r'.tid = r.tid → r'.txn = r.txn := by
    rintro dst dst' r r' rfl ⟨call, hmem, -, -, hrequest⟩ htid
    have hsame := huse call hmem
    rw [hrequest] at hsame
    exact hsame htid
  rcases hstep.client_before hs with hold | ⟨hcall, -⟩
  · rcases hstep.client_before hs' with hold' | ⟨hcall', -⟩
    · exact h.single dst dst' r r' hold hold' htid
    · exact hnew hcall' hold htid
  · rcases hstep.client_before hs' with hold' | ⟨hcall', -⟩
    · exact (hnew hcall hold' htid.symm).symm
    · rw [hcall] at hcall'
      injection hcall' with _ hr
      injection hr with hr
      rw [hr]

/-- The positions after `last_inserted` hold no transfer. -/
theorem beyond_react (h : Matched c n) (hfs : fs.working)
    (hindexed : (n.servers x).wal.Indexed) (hend : (n.servers x).SyncsAtEnd input) (k : ℕ)
    (hk : ((n.servers x).react c fs input).server.lastInserted < k) :
    ∀ a ∈ (TpcBank.slots ((n.servers x).react c fs input).server.log)[k]?, a = none := by
  intro a ha
  have hacted : Server.Acted c fs (n.servers x) input _ := Server.react_acted input
  rcases hacted.slots hfs hindexed hend with ⟨appended, -, -, hlast⟩ | ⟨hlast, hsame | hsame⟩
  · have hlen := (List.getElem?_eq_some_iff.mp ha).1
    rw [length_slots] at hlen
    omega
  · rw [hsame] at ha
    rw [hlast] at hk
    exact h.beyond x k hk a ha
  · rw [hsame] at ha
    rw [hlast] at hk
    rcases lt_trichotomy k (TpcBank.slots (n.servers x).log).length with hlt | rfl | hgt
    · rw [List.getElem?_append_left hlt] at ha
      exact h.beyond x k hk a ha
    · simpa [eq_comm] using ha
    · rw [List.getElem?_eq_none (by simp at hgt ⊢; omega)] at ha
      cases ha

/-- The positions up to `last_inserted` hold what they hold in the other logs. -/
theorem slots_react (h : Matched c n) (hfs : fs.working)
    (hindexed : (n.servers x).wal.Indexed) (hend : (n.servers x).SyncsAtEnd input)
    (hfit : n.SlotsFit c x input) (hy : y ∈ c.peers x) (k : ℕ)
    (hk : (k : ℤ) ≤ ((n.servers x).react c fs input).server.lastInserted)
    (hky : (k : ℤ) ≤ (n.servers y).lastInserted) :
    (TpcBank.slots ((n.servers x).react c fs input).server.log)[k]? =
      (TpcBank.slots (n.servers y).log)[k]? := by
  have hacted : Server.Acted c fs (n.servers x) input _ := Server.react_acted input
  have hhigh := (h.index x).2
  have hold : ∀ more, (k : ℤ) ≤ (n.servers x).lastInserted →
      (TpcBank.slots (n.servers x).log ++ more)[k]? = (TpcBank.slots (n.servers y).log)[k]? := by
    intro more hk
    rw [List.getElem?_append_left (by rw [length_slots]; omega)]
    exact h.slots x y hy k hk hky
  rcases hacted.slots hfs hindexed hend with ⟨appended, happ, hsame, hlast⟩ | ⟨hlast, hsame⟩
  · rw [hsame]
    by_cases hk' : (k : ℤ) ≤ (n.servers x).lastInserted
    · exact hold appended hk'
    · have hlen := congrArg List.length hsame
      rw [length_slots] at hlen
      exact hfit appended happ y hy k (by omega) (by omega) hky
  · rw [hlast] at hk
    rcases hsame with hsame | hsame <;> rw [hsame]
    · exact h.slots x y hy k hk hky
    · exact hold [none] hk

/-- A tid that a Sync reply brings is one of another server of the cluster, or of this one. -/
theorem settled_sync (h : Matched c n) (hrouted : Routed c n) (hacts : Acts n e x fs input)
    (hy : y ∈ c.peers x) {q : SyncReq} {res : SyncRes}
    (hinput : input = .reply (.sync q) .ok (.sync res)) {tid : ℤ}
    (htid : tid ∈ (n.servers x).settling input) :
    tid ∈ crossTids (n.servers y).log ∨ n.Awaits y tid := by
  subst hinput
  obtain ⟨dst, ha⟩ := hacts.reply_answered
  have hcluster := hrouted.sync ha.sent
  have hmem : tid ∈ crossTids (n.servers dst).log := by
    unfold Server.settling at htid
    dsimp only at htid
    split_ifs at htid
    · obtain ⟨e', he', htype, hstatus, rfl⟩ := mem_crossTids.mp htid
      obtain ⟨entry, hentry, rfl⟩ := List.mem_map.mp he'
      exact mem_crossTids.mpr ⟨_, h.syncs _ _ _ _ ha entry hentry, htype, hstatus, rfl⟩
    · cases htid
  by_cases hdy : dst = y
  · exact .inl (hdy ▸ hmem)
  have hxy := Constants.mem_peers.mp hy
  apply h.shared dst y ?_ tid hmem
  exact Constants.mem_peers.mpr ⟨hxy.1, Ne.symm hdy, hxy.2.2.trans hcluster.symm⟩

/-- An event that runs no handler. -/
theorem quiet (h : Matched c n) (hstep : Stepped c n e n') (huse : n.SingleUse e)
    (hact : acting n e = none) : Matched c n' := by
  have hno : ∀ {id fs input}, ¬ Acts n e id fs input := by
    intro id fs input hacts
    rw [acting_eq_some.mpr hacts] at hact
    cases hact
  have hservers : n'.servers = n.servers := by
    cases hstep.change with
    | quiet hservers => exact hservers
    | handled id fs input r hacts => exact absurd hacts hno
  refine ⟨?_, ?_, ?_, ?_, fun x y hy tid htid => ?_, fun _ _ _ _ => h.syncs_step hstep,
    fun _ _ _ _ => h.single_step hstep huse⟩
  · rw [hservers]
    exact h.index
  · rw [hservers]
    exact h.beyond
  · rw [hservers]
    exact h.slots
  · rw [hservers]
    exact h.once
  · rw [hservers] at htid ⊢
    refine (h.shared x y hy tid htid).imp_right fun hawaits => ?_
    rcases hawaits.step hstep with hlater | ⟨fs, hacts⟩
    · exact hlater
    · exact absurd hacts hno

/-- A cross-shard transaction that one server has committed comes to the others. -/
theorem shared_step (h : Matched c n) (hrouted : Routed c n) (hstep : Stepped c n e n')
    {z : ℤ} (hacts : Acts n e z fs input) (hdecided : n.DecidedByAll c z input)
    (hself : crossTids (n'.servers z).log =
      crossTids (n.servers z).log ++ (n.servers z).settling input)
    (hother : ∀ id, id ≠ z → n'.servers id = n.servers id) (hy : y ∈ c.peers x) {tid : ℤ}
    (htid : tid ∈ crossTids (n'.servers x).log) :
    tid ∈ crossTids (n'.servers y).log ∨ n'.Awaits y tid := by
  have hgrows := crossTids_grows hstep y
  have hcases : tid ∈ crossTids (n.servers y).log ∨ n.Awaits y tid ∧
      (tid ∈ crossTids (n.servers x).log ∨ x = z) := by
    by_cases hold : tid ∈ crossTids (n.servers x).log
    · exact (h.shared x y hy tid hold).imp_right fun hawaits => ⟨hawaits, .inl hold⟩
    obtain rfl : x = z := by
      by_contra hne
      rw [hother x hne] at htid
      exact hold htid
    rw [hself, List.mem_append] at htid
    have hsettled := htid.resolve_left hold
    suffices hs : tid ∈ crossTids (n.servers y).log ∨ n.Awaits y tid from
      hs.imp_right fun hawaits => ⟨hawaits, .inr rfl⟩
    have hcopy := hsettled
    unfold Server.settling at hcopy
    split at hcopy
    · split_ifs at hcopy
      · obtain rfl := List.mem_singleton.mp hcopy
        exact (hdecided y hy).1 hsettled
      · cases hcopy
    · exact h.settled_sync hrouted hacts hy rfl hsettled
    · cases hcopy
  rcases hcases with hmem | ⟨hawaits, hfrom⟩
  · exact .inl (hgrows hmem)
  rcases hawaits.step hstep with hlater | ⟨fs', harrives⟩
  · exact .inr hlater
  -- the decision reaches `y` now, which obeys it or has obeyed it
  obtain ⟨rfl, rfl⟩ := hacts.unique harrives
  have hne : x ≠ z := (Constants.mem_peers.mp hy).2.1.symm
  have hmem := (hdecided x (Constants.mem_peers_symm hy)).2 (hfrom.resolve_right hne)
  left
  rwa [hself]

/-- An event that runs a handler. -/
theorem handled (h : Matched c n) (hrouted : Routed c n)
    (hindexed : ∀ id, (n.servers id).wal.Indexed) (hfs : fs.working) (hs : step c n e = some n')
    (hacts : Acts n e x fs input) (huse : n.SingleUse e) (hend : (n.servers x).SyncsAtEnd input)
    (hfit : n.SlotsFit c x input) (honce : n.SettlesOnce x input)
    (hdecided : n.DecidedByAll c x input) : Matched c n' := by
  have hstep := step_stepped hs
  have hservers := step_acts hs hacts
  have hself : n'.servers x = ((n.servers x).react c fs input).server := by
    rw [hservers, Function.update_self]
  have hother : ∀ id, id ≠ x → n'.servers id = n.servers id := by
    intro id hne
    rw [hservers, Function.update_of_ne hne]
  have hcross : crossTids (n'.servers x).log = _ ++ _ :=
    hself ▸ Server.react_crossTids hfs (hindexed x)
  constructor
  · exact hstep.server_invariant (I := fun _ s => s.IndexInLog) h.index
      fun id fs input r _ hr => hr.indexInLog (h.index id)
  · intro id
    by_cases hid : id = x
    · subst hid
      rw [hself]
      exact h.beyond_react hfs (hindexed id) hend
    · rw [hother id hid]
      exact h.beyond id
  · intro y z hz k hy hk
    by_cases hyx : y = x
    · subst hyx
      rw [hother z (Constants.mem_peers.mp hz).2.1] at hk ⊢
      rw [hself] at hy ⊢
      exact h.slots_react hfs (hindexed y) hend hfit hz k hy hk
    rw [hother y hyx] at hy ⊢
    by_cases hzx : z = x
    · subst hzx
      rw [hself] at hk ⊢
      exact (h.slots_react hfs (hindexed z) hend hfit (Constants.mem_peers_symm hz) k hk hy).symm
    · rw [hother z hzx] at hk ⊢
      exact h.slots y z hz k hy hk
  · intro id
    by_cases hid : id = x
    · subst hid
      rw [hcross]
      refine List.nodup_append'.mpr ⟨h.once id, honce.1, ?_⟩
      exact fun tid hold hnew => honce.2.1 tid hnew hold
    · rw [hother id hid]
      exact h.once id
  · exact fun _ _ hy tid htid => h.shared_step hrouted hstep hacts hdecided hcross hother hy htid
  · exact fun _ _ _ _ => h.syncs_step hstep
  · exact fun _ _ _ _ => h.single_step hstep huse

theorem step (h : Matched c n) (hprov : Provenance c n) (hworking : e.working)
    (hstays : StaysMatched c n e) (hs : Network.step c n e = some n') : Matched c n' := by
  obtain ⟨huse, hkeeps⟩ := hstays
  cases hact : acting n e with
  | none => exact h.quiet (step_stepped hs) huse hact
  | some a =>
    obtain ⟨x, fs, input⟩ := a
    have hacts := acting_eq_some.mp hact
    obtain ⟨hend, hfit, honce, hdecided⟩ := hkeeps _ hact
    exact h.handled hprov.routed hprov.indexed (hacts.working hworking) hs hacts huse hend hfit
      honce hdecided

end Matched

/-! ### A Prepare on its way -/

/-- A call that a server has started in this event was sent by the handler that ran. -/
theorem Stepped.new_call (h : Stepped c n e n') {i : ℕ} {call : Call} (hi : n.calls.length ≤ i)
    (hcall : n'.calls[i]? = some call) {p : ℤ} (hsrc : call.src = some p) :
    ∃ fs input r, (n.servers p).Acted c fs input r ∧ n'.servers p = r.server ∧
      ⟨call.dst, call.request⟩ ∈ r.sent := by
  have hmore : ∀ {j : ℕ} {b' : Call} {more : List Call},
      (n.calls.set j b' ++ more)[i]? = some call → call ∈ more := by
    intro j b' more hcall
    rw [List.getElem?_append_right (by simpa using hi)] at hcall
    exact List.mem_of_getElem? hcall
  cases h with
  | called dst request =>
    rw [List.getElem?_append_right hi] at hcall
    obtain rfl := List.mem_singleton.mp (List.mem_of_getElem? hcall)
    cases hsrc
  | delivered j fs b r hb hnew hr =>
    obtain ⟨hsent, hfrom, -, -⟩ := mem_outCalls.mp (hmore hcall)
    obtain rfl := Option.some.inj (hfrom.symm.trans hsrc)
    exact ⟨fs, _, r, hr, Function.update_self _ _ _, hsent⟩
  | ended j status fs b =>
    rw [List.getElem?_eq_none (by simpa using hi)] at hcall
    cases hcall
  | completed j status fs b src r hb hopen hsrc' hr =>
    obtain ⟨hsent, hfrom, -, -⟩ := mem_outCalls.mp (hmore hcall)
    obtain rfl := Option.some.inj (hfrom.symm.trans hsrc)
    exact ⟨fs, _, r, hr, Function.update_self _ _ _, hsent⟩

/-- A proposer since it sent a Prepare that has not arrived. -/
structure Waiting (origin n : Network) (p : ℤ) (request : PrepareReq) : Prop where
  lastInserted : request.lastInserted = (origin.servers p).lastInserted
  log : (origin.servers p).log <+: (n.servers p).log
  inserted : (origin.servers p).lastInserted ≤ (n.servers p).lastInserted
  settled : crossTids (n.servers p).log = crossTids (origin.servers p).log

theorem Waiting.step {origin : Network} {p : ℤ} {request : PrepareReq}
    (h : Waiting origin n p request) (hmatched : Matched c n) (hprov : Provenance c n)
    (hworking : e.working) (hstays : StaysMatched c n e) (hs : Network.step c n e = some n')
    (hasks : n.AsksPromise p) : Waiting origin n' p request := by
  have hstep := step_stepped hs
  refine ⟨h.lastInserted, h.log.trans (hstep.log_grows p), h.inserted.trans ?_, ?_⟩
  · cases hstep.changeAt p with
    | same hserver => rw [hserver]
    | handled fs input r hacts hr hserver =>
      rw [hserver]
      exact hr.lastInserted_le (hmatched.index p)
  · rw [← h.settled]
    cases hstep.changeAt p with
    | same hserver => rw [hserver]
    | handled fs input r hacts hr hserver =>
      obtain ⟨-, -, honce, -⟩ := hstays.2 _ (acting_eq_some.mpr hacts)
      have hnone : (n.servers p).settling input = [] := by
        by_contra hne
        exact honce.2.2 hne hasks
      rw [step_acts hs hacts, Function.update_self,
        Server.react_crossTids (hacts.working hworking) (hprov.indexed p), hnone, List.append_nil]

/-- The Prepares that have not arrived, each with the state it was sent in. -/
def Waits (c : Constants) (disk : ℤ → Disk) (es : List Event) (n : Network) : Prop :=
  ∀ i origin, whenSent c disk es i = some origin → i < n.calls.length ∧
    ∀ p f request completed, n.calls[i]? = some ⟨some p, f, .prepare request, none, completed⟩ →
      Waiting origin n p request

theorem Waits.step (h : Waits c disk es n) (hrun : run (Network.step c) (init c disk) es = some n)
    (hmatched : Matched c n) (hprov : Provenance c n) (hworking : e.working)
    (hstays : StaysMatched c n e) (hs : Network.step c n e = some n') :
    Waits c disk (es ++ [e]) n' := by
  have hstep := step_stepped hs
  intro i origin horigin
  cases hold : whenSent c disk es i with
  | some origin' =>
    obtain rfl := Option.some.inj ((firstWith_append hold [e]).symm.trans horigin)
    obtain ⟨hi, hwaits⟩ := h i origin' hold
    obtain ⟨b, hb⟩ : ∃ b, n.calls[i]? = some b := ⟨_, List.getElem?_eq_getElem hi⟩
    obtain ⟨d, hd, hlater⟩ := hstep.later hb
    refine ⟨(List.getElem?_eq_some_iff.mp hd).1, ?_⟩
    intro p f request completed hcall
    obtain rfl := Option.some.inj (hd.symm.trans hcall)
    have hnew : b.response = none := by
      cases hres : b.response with
      | none => rfl
      | some res => cases hlater.response res hres
    obtain ⟨src, dst, sent, response, done⟩ := b
    obtain ⟨rfl, rfl, rfl, rfl⟩ : some p = src ∧ f = dst ∧ .prepare request = sent ∧
        response = none := ⟨hlater.src, hlater.dst, hlater.request, hnew⟩
    exact (hwaits p f request done hb).step hmatched hprov hworking hstays hs
      ⟨_, List.mem_of_getElem? hb, rfl, rfl, rfl⟩
  | none =>
    have hfirst : whenSent c disk (es ++ [e]) i = if i < n'.calls.length then some n' else none :=
      firstWith_snoc hold hrun hs
    rw [horigin] at hfirst
    split_ifs at hfirst with hi
    obtain rfl := Option.some.inj hfirst
    refine ⟨hi, fun p f request completed hcall => ?_⟩
    have hlen : n.calls.length ≤ i := by
      by_contra hlt
      obtain ⟨u, hu⟩ := firstWith_of_run (Q := fun n : Network => i < n.calls.length) hrun
        (not_le.mp hlt)
      exact absurd (hu.symm.trans hold) (by simp)
    obtain ⟨fs, input, r, hr, hserver, hsent⟩ := hstep.new_call hlen hcall rfl
    obtain ⟨hrequest, -, polled, -, -, -, -, rfl⟩ := hr.sent_prepare hsent
    refine ⟨?_, List.prefix_rfl, le_rfl, rfl⟩
    rw [hserver, hrequest]
    rfl

/-! ### Every run -/

/-- A run whose steps all keep the states of the clusters together. -/
abbrev ReachesMatched (c : Constants) (disk : ℤ → Disk) (es : List Event) (n : Network) : Prop :=
  Reaches c (fun n e => Regular c e ∧ StaysMatched c n e) disk es n

theorem ReachesMatched.regular (h : ReachesMatched c disk es n) :
    Reaches c (fun _ e => Regular c e) disk es n :=
  h.mono fun _ _ hP => hP.1

theorem reaches_matched (h : ReachesMatched c disk es n) :
    Provenance c n ∧ Matched c n ∧ Waits c disk es n := by
  induction h with
  | refl =>
    refine ⟨provenance_init c disk, matched_init c disk, fun i origin horigin => ?_⟩
    obtain ⟨hi, es₁, es₂, hnil, hrun⟩ := firstWith_eq_some horigin
    obtain ⟨rfl, -⟩ := List.append_eq_nil_iff.mp hnil.symm
    obtain rfl := Option.some.inj hrun
    cases hi
  | snoc hrun hP hs ih =>
    obtain ⟨hprov, hmatched, hwaits⟩ := ih
    obtain ⟨⟨hworking, hclassified, -⟩, hstays⟩ := hP
    exact ⟨hprov.step (step_stepped hs) hworking hclassified,
      hmatched.step hprov hworking hstays hs,
      hwaits.step hrun.run_eq hmatched hprov hworking hstays hs⟩

theorem Matched.exists_book (h : Matched c n) : ∃ book : ℤ → Transaction, ∀ dst r,
    n.Sent none dst (.tpcPrepare r) → r.txn = book r.tid := by
  have hchoice : ∀ tid, ∃ txn, ∀ dst r, n.Sent none dst (.tpcPrepare r) → r.tid = tid →
      r.txn = txn := by
    intro tid
    by_cases hsome : ∃ dst r, n.Sent none dst (.tpcPrepare r) ∧ r.tid = tid
    · obtain ⟨dst, r, hs, htid⟩ := hsome
      exact ⟨r.txn, fun dst' r' hs' htid' => h.single _ _ _ _ hs' hs (htid'.trans htid.symm)⟩
    · exact ⟨⟨0, 0, 0⟩, fun dst r hs htid => absurd ⟨dst, r, hs, htid⟩ hsome⟩
  choose book hbook using hchoice
  exact ⟨book, fun dst r hs => hbook r.tid dst r hs rfl⟩

/-- The balances of a server, from the two parts of a beginning of its log. -/
theorem balances_parts (hprov : Provenance c n) {book : ℤ → Transaction}
    (hbook : ∀ dst r, n.Sent none dst (.tpcPrepare r) → r.txn = book r.tid) {k x : ℤ} (hk : 0 < k)
    {id : ℤ} (hid : c.getClusterIdFromServerId id = k) {d : Data} (hreplayed : Replayed c k d)
    (hlog : d.log <+: (n.servers id).log) (hx : c.IsClientOf k x) : d.balances x =
      10 + (net ((slots d.log).reduceOption.map Transaction.posting) x +
        net ((crossTids d.log).map fun tid => (book tid).posting) x) := by
  have hvouched : ∀ w ∈ d.log, Vouched c n k w := by
    intro w hw
    rw [← hid] at hk ⊢
    exact hprov.logs id hk w (hlog.subset hw)
  have hintra : ∀ w ∈ d.log, w.type = .intra → w.status = .committed :=
    fun w hw => (hvouched w hw).intra
  have hcross : ∀ w ∈ d.log, w.type = .cross → w.txn = book w.tid := by
    intro w hw htype
    obtain ⟨dst, -, hs⟩ := (hvouched w hw).issued
    rw [show Decidable.decide (w.type = .cross) = true from decide_eq_true htype] at hs
    exact hbook dst ⟨w.txn, w.tid⟩ hs
  rw [hreplayed.balances x hx, net_committed_parts hintra hcross]

/-- A server that no decision is on its way to has committed what the others have. -/
theorem Matched.crossTids_subset (h : Matched c n) (hy : y ∈ c.peers x)
    (hquiet : ¬ n.Undelivered y) :
    crossTids (n.servers x).log ⊆ crossTids (n.servers y).log := by
  intro tid htid
  rcases h.shared x y hy tid htid with hmem | ⟨call, hcall, hdst, hnew, hrequest⟩
  · exact hmem
  · exact absurd ⟨call, hcall, hdst, hnew, by rw [hrequest]; rfl⟩ hquiet

theorem acknowledges_lastInserted {s : Server} {request : PrepareReq}
    (h : s.acknowledges request = true) : request.lastInserted = s.lastInserted := by
  by_cases hahead : s.ballotNum < request.ballot.num ∧ request.lastInserted = s.lastInserted
  · exact hahead.2
  · unfold Server.acknowledges Server.processPrepareCall at h
    split_ifs at h

/-- In every run of regular events, with working files, whose steps keep the states together, a
server that acknowledges a Prepare while no decision is on its way has the balances that the
proposer had when it sent the Prepare. -/
theorem reaches_stateMatch (h : ReachesMatched c disk es n) : StateMatch c disk es n := by
  intro i p f origin hpromises x hx
  obtain ⟨hprov, hmatched, hwaits⟩ := reaches_matched h
  obtain ⟨request, completed, hcall, hack⟩ := hpromises.pending
  have hwaiting := (hwaits i origin hpromises.sent).2 p f request completed hcall
  obtain ⟨-, es₁, es₂, rfl, hrun⟩ := firstWith_eq_some hpromises.sent
  have horigin : ReachesMatched c disk es₁ origin := h.of_append hrun
  have hpeer : f ∈ c.peers p := by
    have hs : n.Sent (some p) f (.prepare request) :=
      ⟨_, List.mem_of_getElem? hcall, rfl, rfl, rfl⟩
    obtain ⟨hsrc, hdst⟩ := hprov.routed.prepare hs
    rwa [Option.some.inj hsrc]
  obtain ⟨hf, -, hcluster⟩ := Constants.mem_peers.mp hpeer
  have hp : 1 ≤ p := (Constants.mem_peers.mp (Constants.mem_peers_symm hpeer)).1.1
  have hpos : 0 < c.getClusterIdFromServerId f := c.clusterIdFromServerId_pos hf.1
  obtain ⟨book, hbook⟩ := hmatched.exists_book
  have hfollower := balances_parts hprov hbook hpos rfl (reaches_replayed h.regular hf.1)
    List.prefix_rfl hx
  have hreplayed := reaches_replayed horigin.regular hp
  rw [← hcluster] at hreplayed
  have hproposer := balances_parts hprov hbook hpos hcluster.symm hreplayed hwaiting.log hx
  -- equal values of `last_inserted` make the transfers equal
  have hlast : (n.servers f).lastInserted = (origin.servers p).lastInserted :=
    (acknowledges_lastInserted hack).symm.trans hwaiting.lastInserted
  have hbefore := (reaches_matched horigin).2.1
  obtain ⟨hlow, hhigh⟩ := hbefore.index p
  have hslots : (slots (n.servers f).log).reduceOption =
      (slots (origin.servers p).log).reduceOption := by
    refine reduceOption_eq (m := ((origin.servers p).lastInserted + 1).toNat) ?_ ?_ ?_
    · intro k hk
      have hinserted := hwaiting.inserted
      obtain ⟨more, hmore⟩ := hwaiting.log
      rw [hmatched.slots f p (Constants.mem_peers_symm hpeer) k (by omega) (by omega), ← hmore,
        slots_append, List.getElem?_append_left (by rw [length_slots]; omega)]
    · exact fun k hk => hmatched.beyond f k (by omega)
    · exact fun k hk => hbefore.beyond p k (by omega)
  -- and decisions that have arrived make the cross-shard transactions equal
  have hcross : (crossTids (n.servers f).log).Perm (crossTids (origin.servers p).log) := by
    rw [← hwaiting.settled, List.perm_ext_iff_of_nodup (hmatched.once f) (hmatched.once p)]
    intro tid
    exact ⟨fun htid => hmatched.crossTids_subset (Constants.mem_peers_symm hpeer)
      hpromises.quiet.1 htid, fun htid => hmatched.crossTids_subset hpeer hpromises.quiet.2 htid⟩
  have hnet : net ((crossTids (n.servers f).log).map fun tid => (book tid).posting) x =
      net ((crossTids (origin.servers p).log).map fun tid => (book tid).posting) x := by
    rw [net_eq_sum, net_eq_sum]
    exact ((hcross.map _).map _).sum_eq
  rw [Server.data_balances, Server.data_log, hslots, hnet] at hfollower
  rw [Server.data_balances, Server.data_log] at hproposer
  exact hfollower.trans hproposer.symm

/-- A cross-shard transaction comes to its end at all servers of cluster 1, and server 1 sends a
Prepare for a transfer after that. -/
def matchedRun : List Event :=
  [.call 1 (.tpcPrepare ⟨⟨1, 1001, 3⟩, 7⟩), .arrives 0, .arrives 1, .arrives 2, .returns 1,
    .arrives 0, .arrives 3, .arrives 4, .returns 3, .arrives 0, .arrives 5, .arrives 6,
    .call 1 (.tpcCommit ⟨7⟩), .call 2 (.tpcCommit ⟨7⟩), .call 3 (.tpcCommit ⟨7⟩), .arrives 7,
    .arrives 8, .arrives 9, .call 1 (.transfer ⟨⟨2, 3, 1⟩, 8⟩), .arrives 10]

theorem reaches_stateMatch_matchedRun :
    ∃ n origin, run (step .standard) (init .standard fun _ => .empty) matchedRun = some n ∧
      Promises .standard (fun _ => .empty) matchedRun n 11 1 2 origin ∧
      (n.servers 2).balances 1 = 7 ∧ (n.servers 2).balances 1 = (origin.servers 1).balances 1 := by
  obtain ⟨n, hn, hcheck⟩ := (Option.any_eq_true _ _).mp
    (show (runIf (step .standard) (StaysMatched .standard) (init .standard fun _ => .empty)
      matchedRun).any (fun n =>
        (n.calls[11]? = some ⟨some 1, 2, .prepare ⟨⟨2, 1⟩, 0⟩, none, false⟩) &&
          (n.servers 2).acknowledges ⟨⟨2, 1⟩, 0⟩ &&
          (n.calls.all fun call => !(call.response.isNone && call.request.isDecision)) &&
          (whenSent .standard (fun _ => .empty) matchedRun 11).isSome &&
          decide ((n.servers 2).balances 1 = 7)) = true by
      decide +kernel)
  simp only [Bool.and_eq_true, decide_eq_true_eq] at hcheck
  obtain ⟨⟨⟨⟨hcall, hack⟩, hquiet⟩, horigin⟩, hseven⟩ := hcheck
  obtain ⟨origin, hsent⟩ := Option.isSome_iff_exists.mp horigin
  have hruns := runs_of_runIf hn
  have hregular := runs_of_forall (P := Regular .standard) hruns.run_eq (by
    have hsame : Constants.standard.getClusterIdFromClientId 2 =
        Constants.standard.getClusterIdFromClientId 3 := by decide
    have hacross : Constants.standard.getClusterIdFromClientId 1 ≠
        Constants.standard.getClusterIdFromClientId 1001 := by decide
    simp [matchedRun, Regular, Event.arrives, Event.returns, Event.working, Event.tidsPositive,
      Request.tidsPositive, Classified, FileSystem.allOpen_working, hsame, hacross])
  have hpromises : Promises .standard (fun _ => .empty) matchedRun n 11 1 2 origin := by
    refine ⟨⟨_, _, hcall, hack⟩, hsent, ?_⟩
    have hundelivered : ∀ id, ¬ n.Undelivered id := by
      rintro id ⟨call, hmem, -, hnone, hdecision⟩
      have := List.all_eq_true.mp hquiet call hmem
      simp [hnone, hdecision] at this
    exact ⟨hundelivered 1, hundelivered 2⟩
  refine ⟨n, origin, hruns.run_eq, hpromises, hseven, ?_⟩
  exact reaches_stateMatch (hregular.and hruns) 11 1 2 origin hpromises 1
    (by unfold Constants.IsClientOf; decide)

/-- Server 2 is disconnected when the decision of a transaction reaches it. -/
def missedRun : List Event :=
  [.call 1 (.tpcPrepare ⟨⟨1, 1001, 3⟩, 7⟩), .arrives 0, .arrives 1, .returns 1, .arrives 0,
    .arrives 3, .returns 3, .arrives 0, .call 2 (.disconnect ⟨["S2".toList]⟩), .arrives 7,
    .call 1 (.tpcCommit ⟨7⟩), .call 2 (.tpcCommit ⟨7⟩), .arrives 8, .arrives 9,
    .call 2 (.disconnect ⟨[]⟩), .arrives 10, .call 1 (.transfer ⟨⟨2, 3, 1⟩, 8⟩), .arrives 11]

theorem not_stateMatch_missedRun :
    ∃ n, run (step .standard) (init .standard fun _ => .empty) missedRun = some n ∧
      ¬ StateMatch .standard (fun _ => .empty) missedRun n := by
  obtain ⟨n, hn, hbad⟩ := (Option.any_eq_true _ _).mp
    (show (run (step .standard) (init .standard fun _ => .empty) missedRun).any (fun n =>
      (n.calls[12]? = some ⟨some 1, 2, .prepare ⟨⟨2, 1⟩, 0⟩, none, false⟩) &&
        (n.servers 2).acknowledges ⟨⟨2, 1⟩, 0⟩ &&
        (n.calls.all fun call => !(call.response.isNone && call.request.isDecision)) &&
        (whenSent .standard (fun _ => .empty) missedRun 12).any fun origin =>
          decide ((n.servers 2).balances 1 ≠ (origin.servers 1).balances 1)) = true by
      decide +kernel)
  simp only [Bool.and_eq_true, decide_eq_true_eq] at hbad
  obtain ⟨⟨⟨hcall, hack⟩, hquiet⟩, horigin⟩ := hbad
  obtain ⟨origin, hsent, hne⟩ := (Option.any_eq_true _ _).mp horigin
  have hundelivered : ∀ id, ¬ n.Undelivered id := by
    rintro id ⟨call, hmem, -, hnone, hdecision⟩
    have := List.all_eq_true.mp hquiet call hmem
    simp [hnone, hdecision] at this
  refine ⟨n, hn, fun hmatch => of_decide_eq_true hne ?_⟩
  exact hmatch 12 1 2 origin ⟨⟨_, _, hcall, hack⟩, hsent, hundelivered 1, hundelivered 2⟩ 1
    (by unfold Constants.IsClientOf; decide)

end Network
end TpcBank
