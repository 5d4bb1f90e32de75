import TpcBank.LatePrepares

/-! Who the locks of a server belong to: the transaction of its own accept phase, the value it
has accepted, or an undecided transaction. Locks name no owner, so the transaction of the
accept phase is kept as a ghost component. -/
namespace TpcBank
open Transition

/-- A transaction is the one of the own accept phase, the accepted one, or an undecided one. -/
def Alive (own val : Option TransferReq) (undecided : ℤ → Option WALEntry) (txn : Transaction) :
    Prop :=
  (∃ r ∈ own, r.txn = txn) ∨ (∃ r ∈ val, r.txn = txn) ∨ ∃ tid, ∃ e ∈ undecided tid, e.txn = txn

/-- Every lock is of a client of the cluster that belongs to a live transaction. -/
def AllOwned (c : Constants) (clusterId : ℤ) (own val : Option TransferReq)
    (undecided : ℤ → Option WALEntry) (locks : Finset ℤ) : Prop :=
  ∀ x ∈ locks, ∃ txn, Alive own val undecided txn ∧ x ∈ c.items clusterId txn

namespace AllOwned

variable {c : Constants} {clusterId : ℤ} {own own' val val' : Option TransferReq}
  {undecided undecided' : ℤ → Option WALEntry} {locks locks' : Finset ℤ}

/-- A transaction that is live no more and has no client locked is missed by no lock. -/
theorem carry (h : AllOwned c clusterId own val undecided locks) (hsub : locks' ⊆ locks)
    (hlive : ∀ txn, Alive own val undecided txn →
      Alive own' val' undecided' txn ∨ Disjoint (c.items clusterId txn) locks') :
    AllOwned c clusterId own' val' undecided' locks' := by
  intro x hx
  obtain ⟨txn, htxn, hitem⟩ := h x (hsub hx)
  rcases hlive txn htxn with hstays | hfree
  · exact ⟨txn, hstays, hitem⟩
  · exact absurd hx (Finset.disjoint_left.mp hfree hitem)

theorem union (h : AllOwned c clusterId own val undecided locks) {txn : Transaction}
    (hlive : Alive own val undecided txn) :
    AllOwned c clusterId own val undecided (locks ∪ c.items clusterId txn) := by
  intro x hx
  rcases Finset.mem_union.mp hx with hx | hx
  · exact h x hx
  · exact ⟨txn, hlive, hx⟩

end AllOwned

theorem Constants.items_subset (c : Constants) (clusterId : ℤ) (txn : Transaction) :
    c.items clusterId txn ⊆ {txn.sender, txn.receiver} := Finset.filter_subset _ _

namespace Server

/-- The transaction of the accept phase of a server, while it lasts. -/
def ownRequest (s : Server) (own : TransferReq) : Option TransferReq :=
  if s.awaitAcceptDecision then some own else none

/-- `accept_val`, while `accepted` is set. -/
def acceptedRequest (s : Server) : Option TransferReq :=
  if s.accepted then some s.acceptVal else none

/-- Every lock of the server has an owner, so a server with no live transaction locks nothing. -/
structure LocksOwned (c : Constants) (s : Server) (own : TransferReq) : Prop where
  owned : AllOwned c s.clusterId (s.ownRequest own) s.acceptedRequest s.undecided s.locks
  free : s.awaitAcceptDecision = false → s.accepted = false → (∀ tid, ¬ s.wal.Has tid) →
    s.locks = ∅

/-- The request of a poll that goes on to the accept phase. -/
def starting (c : Constants) (s : Server) : Input → Option TransferReq
  | .request (.tpcPrepare request) | .request (.transfer request) =>
      if s.Proposes c request then some request else none
  | _ => none

/-- A transaction is undecided, or has no client of the cluster locked. -/
def Cleared (c : Constants) (s : Server) (txn : Transaction) : Prop :=
  (∃ tid, ∃ e ∈ s.undecided tid, e.txn = txn) ∨ Disjoint (c.items s.clusterId txn) s.locks

/-- The index has the tid of a request for no other transaction with a locked client. -/
def KeepsTid (c : Constants) (s : Server) (request : TransferReq) : Prop :=
  ∀ e ∈ s.undecided request.tid,
    e.txn = request.txn ∨ Disjoint (c.items s.clusterId e.txn) s.locks

/-- `accept_val` may be overwritten: it is not accepted, or is of the same transaction, or is
cleared. -/
def Overwrites (c : Constants) (s : Server) (txn : Transaction) : Prop :=
  s.accepted = true → s.acceptVal.txn = txn ∨ s.Cleared c s.acceptVal.txn

/-- No branch forgets a transaction that still has a client locked. A poll goes on to the accept
phase only for a receiver of the cluster; `accept_val` is overwritten, and cleared at the end of an
own round, only if its transaction is cleared; an own round ends with its own transaction unlocked,
cleared, or still accepted; a decision reads back the transaction that the log has; and a Sync
reply decides no undecided transaction. -/
def KeepsOwners (c : Constants) (own : TransferReq) (s : Server) (fs : FileSystem) : Input → Prop
  | .request (.tpcPrepare request) =>
      (s.Proposes c request → c.getClusterIdFromClientId request.txn.receiver = s.clusterId ∧
        s.Overwrites c request.txn ∧ s.KeepsTid c request) ∧
      (s.Commits request → s.Cleared c own.txn ∧ s.Overwrites c own.txn) ∧
      (s.Fails request → s.Cleared c own.txn ∨ s.accepted = true ∧ s.acceptVal.txn = own.txn)
  | .request (.transfer request) =>
      (s.Proposes c request → c.getClusterIdFromClientId request.txn.receiver = s.clusterId ∧
        s.Overwrites c request.txn) ∧
      (s.Commits request → (own.txn = request.txn ∨ s.Cleared c own.txn) ∧
        s.Overwrites c request.txn) ∧
      (s.Fails request → own.txn = request.txn ∨ s.Cleared c own.txn ∨
        s.accepted = true ∧ s.acceptVal.txn = own.txn)
  | .request (.accept request) => s.iAmDisconnected = false → s.promised = true →
      request.ballot.num = s.promisedNum.num →
        (s.Overwrites c request.r.txn ∨
          s.awaitAcceptDecision = true ∧ s.acceptVal.txn = own.txn) ∧
        (s.inCluster c request.r.txn = 1 → s.KeepsTid c request.r)
  | .request (.tpcCommit request) | .request (.tpcAbort request) => s.iAmDisconnected = false →
      fs.opens 1 = true → ∀ e ∈ s.undecided request.tid,
        s.readBack fs request = e.txn ∨ Disjoint (c.items s.clusterId e.txn) s.locks
  | .reply (.sync _) status (.sync response) => status = .ok → response.ack = true →
      ∀ tid, ∀ e ∈ s.undecided tid, Disjoint (c.items s.clusterId e.txn) s.locks ∨
        ∀ entry ∈ response.logs, entry.tid = tid → ¬ (fromLogEntry entry).Decides tid ∧
          ((fromLogEntry entry).status = .prepared → entry.txn = e.txn)
  | _ => True

variable {c : Constants} {fs : FileSystem} {s : Server} {input : Input} {own : TransferReq}

theorem locksOwned_iff : s.LocksOwned c own ↔
    AllOwned c s.clusterId (s.ownRequest own) s.acceptedRequest s.undecided s.locks := by
  refine ⟨fun h => h.owned, fun h => ⟨h, fun hown hacc hnone => ?_⟩⟩
  rw [Finset.eq_empty_iff_forall_notMem]
  intro x hx
  obtain ⟨txn, ⟨r, hr, -⟩ | ⟨r, hr, -⟩ | ⟨tid, e, he, -⟩, -⟩ := h x hx
  · simp [ownRequest, hown] at hr
  · simp [acceptedRequest, hacc] at hr
  · simp [undecided, WAL.undecided, hnone tid] at he

/-- A server that awaits accept replies starts no accept phase. -/
theorem starting_eq_none (hphases : s.Phases) (hacc : s.awaitAcceptDecision = true)
    (input : Input) : s.starting c input = none := by
  have hnot : ∀ request, ¬ s.Proposes c request := by
    intro request hproposes
    rw [hphases.one hproposes.2.1] at hacc
    cases hacc
  unfold starting
  split
  · exact if_neg (hnot _)
  · exact if_neg (hnot _)
  · rfl

theorem starting_eq_some {isCrossShard : Bool} {request : TransferReq}
    (h : s.Proposes c request) :
    s.starting c (.request (.poll isCrossShard request)) = some request := by
  cases isCrossShard <;> exact if_pos h

theorem alive_own_iff (val : Option TransferReq) (undecided : ℤ → Option WALEntry)
    (txn : Transaction) : Alive (s.ownRequest own) val undecided txn ↔
      s.awaitAcceptDecision = true ∧ own.txn = txn ∨ Alive none val undecided txn := by
  unfold Alive ownRequest
  split_ifs with hacc <;> simp [hacc]

theorem alive_val_iff (own : Option TransferReq) (undecided : ℤ → Option WALEntry)
    (txn : Transaction) : Alive own s.acceptedRequest undecided txn ↔
      s.accepted = true ∧ s.acceptVal.txn = txn ∨ Alive own none undecided txn := by
  unfold Alive acceptedRequest
  split_ifs with hacc <;> simp [hacc, or_left_comm]

theorem Cleared.alive {txn : Transaction} (h : s.Cleared c txn) (own val : Option TransferReq) :
    Alive own val s.undecided txn ∨ Disjoint (c.items s.clusterId txn) s.locks :=
  h.imp_left fun hundecided => .inr (.inr hundecided)

/-- The index keeps what it has when a request is prepared, or gets the request for it. -/
theorem KeepsTid.alive {request : TransferReq} (h : s.KeepsTid c request) (ballot : Ballot)
    (own : Option TransferReq) {tid : ℤ} {e : WALEntry} (he : s.undecided tid = some e) :
    Alive own (some request)
        (Function.update s.undecided request.tid (some (preparedEntry request ballot))) e.txn ∨
      Disjoint (c.items s.clusterId e.txn) s.locks := by
  by_cases ht : tid = request.tid
  · subst ht
    exact (h e he).imp_left fun htxn => .inr (.inl ⟨request, rfl, htxn.symm⟩)
  · left
    refine .inr (.inr ⟨tid, e, ?_, rfl⟩)
    rw [Function.update_of_ne ht]
    exact he

/-- An overwritten value is the new one, or undecided still, or has no client locked. -/
theorem Overwrites.alive {request : TransferReq} (h : s.Overwrites c request.txn)
    (own : Option TransferReq) {undecided : ℤ → Option WALEntry}
    (hundecided : ∀ tid e, s.undecided tid = some e → Alive own (some request) undecided e.txn ∨
      Disjoint (c.items s.clusterId e.txn) s.locks) (hacc : s.accepted = true) :
    Alive own (some request) undecided s.acceptVal.txn ∨
      Disjoint (c.items s.clusterId s.acceptVal.txn) s.locks := by
  rcases h hacc with htxn | ⟨tid, e, he, htxn⟩ | hfree
  · exact .inl (.inr (.inl ⟨request, rfl, htxn.symm⟩))
  · rw [← htxn]
    exact hundecided tid e he
  · exact .inr hfree

/-- A reply that decides no undecided transaction leaves it undecided. -/
theorem syncUndecided_kept {logs : List LogEntry} {tid : ℤ} {txn : Transaction}
    (hkeeps : ∀ entry ∈ logs, entry.tid = tid → ¬ (fromLogEntry entry).Decides tid ∧
      ((fromLogEntry entry).status = .prepared → entry.txn = txn)) {i : ℕ}
    {undecided : ℤ → Option WALEntry} (h : ∃ e ∈ undecided tid, e.txn = txn) :
    ∃ e ∈ syncUndecided fs i undecided logs tid, e.txn = txn := by
  induction logs generalizing i undecided with
  | nil => exact h
  | cons entry logs ih =>
    refine ih (fun entry' hmem => hkeeps entry' (List.mem_cons_of_mem _ hmem)) ?_
    by_cases ht : entry.tid = tid
    · obtain ⟨hdecides, hprepared⟩ := hkeeps entry List.mem_cons_self ht
      subst ht
      unfold WALEntry.Decides at hdecides
      unfold WAL.insertUndecided
      cases hs : (fromLogEntry entry).status with
      | prepared =>
        dsimp only
        split_ifs
        · exact ⟨fromLogEntry entry, Function.update_self _ _ _, hprepared hs⟩
        · exact h
      | committed => exact absurd ⟨rfl, .inl hs⟩ hdecides
      | aborted => exact absurd ⟨rfl, .inr hs⟩ hdecides
      | noStatus => exact h
    · have hne : tid ≠ (fromLogEntry entry).tid := Ne.symm ht
      have hsame : WAL.insertUndecided (fs.opens i) undecided (fromLogEntry entry) tid =
          undecided tid := by
        unfold WAL.insertUndecided
        cases (fromLogEntry entry).status <;> dsimp only <;>
          (try split_ifs) <;> simp only [ne_eq, hne, not_false_eq_true, Function.update_of_ne]
      rw [hsame]
      exact h

/-! ### The branches that change an owner or a lock -/

namespace LocksOwned

/-- An accept phase begins, or a peer's Accept is obeyed: the clients of the request are locked for
it, and the value that was accepted before is overwritten. -/
theorem overwritten (h : s.LocksOwned c own) {request : TransferReq} {own' : Option TransferReq}
    {undecided : ℤ → Option WALEntry}
    (hown : ∀ txn, s.awaitAcceptDecision = true ∧ own.txn = txn → Alive own' (some request) undecided txn)
    (hval : s.accepted = true → Alive own' (some request) undecided s.acceptVal.txn ∨
      Disjoint (c.items s.clusterId s.acceptVal.txn) s.locks)
    (hkept : ∀ tid e, s.undecided tid = some e → Alive own' (some request) undecided e.txn ∨
      Disjoint (c.items s.clusterId e.txn) s.locks) :
    AllOwned c s.clusterId own' (some request) undecided
      (s.locks ∪ c.items s.clusterId request.txn) := by
  refine (h.owned.carry subset_rfl fun txn htxn => ?_).union (.inr (.inl ⟨request, rfl, rfl⟩))
  rcases (alive_own_iff _ _ _).mp htxn with hawait | htxn
  · exact .inl (hown txn hawait)
  rcases (alive_val_iff _ _ _).mp htxn with ⟨hacc, rfl⟩ | ⟨r, hr, -⟩ | ⟨r, hr, -⟩ | ⟨tid, e, he, rfl⟩
  · exact hval hacc
  · cases hr
  · cases hr
  · exact hkept tid e he

/-- An own round ends that clears `accept_val`: what it locked is unlocked, or undecided. -/
theorem ended (h : s.LocksOwned c own) {locks : Finset ℤ} (hsub : locks ⊆ s.locks)
    (hown : Alive none none s.undecided own.txn ∨ Disjoint (c.items s.clusterId own.txn) locks)
    (hval : s.accepted = true → Alive none none s.undecided s.acceptVal.txn ∨
      Disjoint (c.items s.clusterId s.acceptVal.txn) locks) :
    AllOwned c s.clusterId none none s.undecided locks := by
  refine h.owned.carry hsub fun txn htxn => ?_
  rcases (alive_own_iff _ _ _).mp htxn with ⟨-, rfl⟩ | htxn
  · exact hown
  rcases (alive_val_iff _ _ _).mp htxn with ⟨haccepted, rfl⟩ | hlive
  · exact hval haccepted
  · exact .inl hlive

/-- An own round fails: its transaction is unlocked, or another owner of its locks is left. -/
theorem failed (h : s.LocksOwned c own) {locks : Finset ℤ} (hsub : locks ⊆ s.locks)
    (hown : Alive none s.acceptedRequest s.undecided own.txn ∨
      Disjoint (c.items s.clusterId own.txn) locks) :
    AllOwned c s.clusterId none s.acceptedRequest s.undecided locks := by
  refine h.owned.carry hsub fun txn htxn => ?_
  rcases (alive_own_iff _ _ _).mp htxn with ⟨-, rfl⟩ | hlive
  · exact hown
  · exact .inl hlive

/-- A Commit unlocks the clients of the accepted transaction and clears it. -/
theorem released (h : s.LocksOwned c own) :
    AllOwned c s.clusterId (s.ownRequest own) none s.undecided
      (s.locks \ c.items s.clusterId s.acceptVal.txn) := by
  refine h.owned.carry Finset.sdiff_subset fun txn htxn => ?_
  rcases (alive_val_iff _ _ _).mp htxn with ⟨-, rfl⟩ | hlive
  · exact .inr Finset.disjoint_sdiff
  · exact .inl hlive

/-- Only the undecided transactions change; one that is undecided no more has no client locked. -/
theorem redecided (h : s.LocksOwned c own) {locks : Finset ℤ} {undecided : ℤ → Option WALEntry}
    (hsub : locks ⊆ s.locks) (hkept : ∀ tid, ∀ e ∈ s.undecided tid,
      (∃ tid', ∃ e' ∈ undecided tid', e'.txn = e.txn) ∨ Disjoint (c.items s.clusterId e.txn) locks) :
    AllOwned c s.clusterId (s.ownRequest own) s.acceptedRequest undecided locks := by
  refine h.owned.carry hsub fun txn htxn => ?_
  rcases htxn with hown | hval | ⟨tid, e, he, rfl⟩
  · exact .inl (.inl hown)
  · exact .inl (.inr (.inl hval))
  · exact (hkept tid e he).imp_left fun hlater => .inr (.inr hlater)

end LocksOwned

/-- A cleared transaction has a live owner still, or no client among fewer locks. -/
theorem Cleared.alive_of_subset {txn : Transaction} (h : s.Cleared c txn) {locks : Finset ℤ}
    (hsub : locks ⊆ s.locks) (own val : Option TransferReq) :
    Alive own val s.undecided txn ∨ Disjoint (c.items s.clusterId txn) locks :=
  (h.alive own val).imp_right (Finset.disjoint_of_subset_right hsub)

/-- The clients of the transaction of a Transfer are unlocked at its end. -/
theorem unlocked_or_cleared {txn txn' : Transaction} (h : txn = txn' ∨ s.Cleared c txn)
    (own val : Option TransferReq) : Alive own val s.undecided txn ∨
      Disjoint (c.items s.clusterId txn) (s.locks \ {txn'.sender, txn'.receiver}) := by
  rcases h with rfl | hcleared
  · exact .inr (Finset.disjoint_of_subset_left (c.items_subset _ _) Finset.disjoint_sdiff)
  · exact hcleared.alive_of_subset Finset.sdiff_subset own val

/-- What is undecided after an accept phase began. -/
theorem accepting_undecided {isCrossShard : Bool} {request : TransferReq} {d : Data}
    (hd : d = if isCrossShard then (s.prepareTransaction fs request s.promisedNum).data else s.data)
    (hkeeps : isCrossShard = true → s.KeepsTid c request) (tid : ℤ) (e : WALEntry)
    (he : s.undecided tid = some e) : Alive (some request) (some request) (d.wal.undecided d.log)
      e.txn ∨ Disjoint (c.items s.clusterId e.txn) s.locks := by
  subst hd
  cases isCrossShard with
  | true =>
    have hundecided : (s.prepareTransaction fs request s.promisedNum).undecided = _ :=
      prepareTransaction_undecided fs s request s.promisedNum
    show Alive _ _ (s.prepareTransaction fs request s.promisedNum).undecided _ ∨ _
    rw [hundecided]
    exact (hkeeps rfl).alive s.promisedNum (some request) he
  | false => exact .inl (.inr (.inr ⟨tid, e, he, rfl⟩))

/-- What is undecided after an Accept. -/
theorem accepted_undecided {request : AcceptReq} {d : Data}
    (hd : d = if s.inCluster c request.r.txn = 1
      then (s.prepareTransaction fs request.r request.ballot).data else s.data)
    (hkeeps : s.inCluster c request.r.txn = 1 → s.KeepsTid c request.r)
    (own : Option TransferReq) (tid : ℤ) (e : WALEntry) (he : s.undecided tid = some e) :
    Alive own (some request.r) (d.wal.undecided d.log) e.txn ∨
      Disjoint (c.items s.clusterId e.txn) s.locks := by
  subst hd
  by_cases hone : s.inCluster c request.r.txn = 1
  · have hundecided : (s.prepareTransaction fs request.r request.ballot).undecided = _ :=
      prepareTransaction_undecided fs s request.r request.ballot
    rw [if_pos hone]
    show Alive _ _ (s.prepareTransaction fs request.r request.ballot).undecided _ ∨ _
    rw [hundecided]
    exact (hkeeps hone).alive request.ballot own he
  · rw [if_neg hone]
    exact .inl (.inr (.inr ⟨tid, e, he, rfl⟩))

/-- A decision unlocks the transaction that it reads back, which is the undecided one. -/
theorem LocksOwned.decided (h : s.LocksOwned c own) (hconn : s.iAmDisconnected = false)
    {request : TpcTid} (isCommit : Bool) (hread : fs.opens 1 = true →
      ∀ e ∈ s.undecided request.tid,
        s.readBack fs request = e.txn ∨ Disjoint (c.items s.clusterId e.txn) s.locks) :
    AllOwned c s.clusterId (s.ownRequest own) s.acceptedRequest
      (s.processTpcDecision c fs request isCommit).undecided
      (s.processTpcDecision c fs request isCommit).locks := by
  rw [processTpcDecision_locks c fs hconn, processTpcDecision_undecided hconn]
  refine h.redecided Finset.sdiff_subset fun tid e he => ?_
  split_ifs with hopen
  · by_cases ht : tid = request.tid
    · subst ht
      rcases hread hopen e he with heq | hfree
      · rw [heq]
        exact .inr Finset.disjoint_sdiff
      · exact .inr (Finset.disjoint_of_subset_right Finset.sdiff_subset hfree)
    · refine .inl ⟨tid, e, ?_, rfl⟩
      rw [Function.update_of_ne ht]
      exact he
  · exact .inl ⟨tid, e, he, rfl⟩

/-! ### One handler -/

/-- A handler that meets the condition leaves every lock with an owner. -/
theorem Acted.locksOwned {r : Handled} (h : Acted c fs s input r) (hlogged : s.wal.Logged s.log)
    (hphases : s.Phases) (howned : s.LocksOwned c own) (hkeeps : s.KeepsOwners c own fs input) :
    r.server.LocksOwned c ((s.starting c input).getD own) := by
  have hsame : s.ownRequest ((s.starting c input).getD own) = s.ownRequest own := by
    unfold ownRequest
    split_ifs with hacc
    · rw [starting_eq_none hphases hacc]
      rfl
    · rfl
  rw [locksOwned_iff]
  cases h with
  | accepting isCrossShard request d hown hprep hmaj hcond hd =>
    have hproposes : s.Proposes c request := ⟨hown, hprep, hmaj, hcond⟩
    obtain ⟨hreceiver, hoverwrites, htid⟩ :
        c.getClusterIdFromClientId request.txn.receiver = s.clusterId ∧
          s.Overwrites c request.txn ∧ (isCrossShard = true → s.KeepsTid c request) := by
      cases isCrossShard with
      | true => exact (hkeeps.1 hproposes).imp_right fun h => h.imp_right fun htid _ => htid
      | false => exact (hkeeps.1 hproposes).imp_right fun h => ⟨h, fun hfalse => by cases hfalse⟩
    have hkept := accepting_undecided hd htid
    have hitem : request.txn.receiver ∈ s.locks ∪ c.items s.clusterId request.txn :=
      Finset.mem_union_right _ (Constants.mem_items.mpr ⟨.inr rfl, hreceiver⟩)
    rw [starting_eq_some hproposes]
    show AllOwned c s.clusterId (some request) (some request) (d.wal.undecided d.log)
      (insert request.txn.receiver (s.locks ∪ c.items s.clusterId request.txn))
    rw [Finset.insert_eq_of_mem hitem]
    refine howned.overwritten (fun txn ⟨hawait, _⟩ => ?_) (hoverwrites.alive _ hkept) hkept
    rw [hphases.one hprep] at hawait
    cases hawait
  | finished request hown hprep hacc hmaj =>
    obtain ⟨hcleared, hoverwrites⟩ := hkeeps.2.1 ⟨hown, hprep, hacc, hmaj⟩
    refine howned.ended subset_rfl (hcleared.alive none none) fun haccepted => ?_
    rcases hoverwrites haccepted with heq | hval
    · rw [heq]
      exact hcleared.alive none none
    · exact hval.alive none none
  | committed request d hown hprep hacc hmaj hd =>
    obtain ⟨hcleared, hoverwrites⟩ := hkeeps.2.1 ⟨hown, hprep, hacc, hmaj⟩
    subst hd
    show AllOwned c s.clusterId none none (s.commitTransaction fs request s.acceptNum).undecided
      ((s.locks.erase request.txn.sender).erase request.txn.receiver)
    rw [commitTransaction_undecided, erase_erase_eq_sdiff]
    exact howned.ended Finset.sdiff_subset (unlocked_or_cleared hcleared none none)
      fun haccepted => unlocked_or_cleared (hoverwrites haccepted) none none
  | failed isCrossShard request hown hprep hacc hmaj hfail =>
    have hfails : s.Fails request := ⟨hown, hprep, hacc, hmaj, hfail⟩
    cases isCrossShard with
    | true =>
      refine howned.failed subset_rfl ?_
      rcases hkeeps.2.2 hfails with hcleared | haccepted
      · exact hcleared.alive none _
      · exact .inl ((alive_val_iff _ _ _).mpr (.inl haccepted))
    | false =>
      show AllOwned c s.clusterId none s.acceptedRequest s.undecided
        ((s.locks.erase request.txn.sender).erase request.txn.receiver)
      rw [erase_erase_eq_sdiff]
      refine howned.failed Finset.sdiff_subset ?_
      rcases or_assoc.mpr (hkeeps.2.2 hfails) with hcleared | haccepted
      · exact unlocked_or_cleared hcleared none _
      · exact .inl ((alive_val_iff _ _ _).mpr (.inl haccepted))
  | accepted request d hconn hprom hnum hd =>
    obtain ⟨hoverwrites, htid⟩ := hkeeps hconn hprom hnum
    have hkept := accepted_undecided hd htid (s.ownRequest own)
    refine howned.overwritten ?_ (fun haccepted => ?_) hkept
    · exact fun txn hown => (alive_own_iff _ _ _).mpr (.inl hown)
    · rcases hoverwrites with hoverwrites | ⟨hawait, htxn⟩
      · exact hoverwrites.alive _ hkept haccepted
      · exact .inl ((alive_own_iff _ _ _).mpr (.inl ⟨hawait, htxn.symm⟩))
  | released request d hconn hprom hacc hd =>
    have hundecided : d.wal.undecided d.log = s.undecided := by
      subst hd
      split_ifs
      · exact commitTransaction_undecided fs s s.acceptVal s.acceptNum
      · rfl
    show AllOwned c s.clusterId (s.ownRequest own) none (d.wal.undecided d.log)
      (s.locks \ c.items s.clusterId s.acceptVal.txn)
    rw [hundecided]
    exact howned.released
  | decided isCommit request d locks hconn hd hlocks =>
    subst hd hlocks
    have hstart : s.starting c (.request (.decision isCommit request)) = none := by
      cases isCommit <;> rfl
    rw [hstart]
    refine howned.decided hconn isCommit ?_
    cases isCommit <;> exact hkeeps hconn
  | synced request response d hack hd =>
    subst hd
    show AllOwned c s.clusterId (s.ownRequest own) s.acceptedRequest
      (s.syncEntries c fs 0 response.logs).undecided s.locks
    rw [(syncEntries_undecided 0 response.logs hlogged).2]
    refine howned.redecided subset_rfl fun tid e he => ?_
    rcases hkeeps rfl hack tid e he with hfree | hentries
    · exact .inr hfree
    · exact .inl ⟨tid, syncUndecided_kept (i := 0) hentries ⟨e, he, rfl⟩⟩
  | _ =>
    have hbefore := howned.owned
    rw [← hsame] at hbefore
    exact hbefore

end Server
/-! ### Every run -/

namespace Network

variable {c : Constants} {n n' : Network} {e : Event}

/-- The requests with which the servers have last gone on to an accept phase of their own. -/
def startedBy (c : Constants) (n : Network) (e : Event) (own : ℤ → TransferReq) :
    ℤ → TransferReq :=
  match acting n e with
  | some (id, _, input) =>
      Function.update own id (((n.servers id).starting c input).getD (own id))
  | none => own

/-- Every lock of every server has an owner. -/
def AllLocksOwned (c : Constants) (p : Network × (ℤ → TransferReq)) : Prop :=
  ∀ x, (p.1.servers x).LocksOwned c (p.2 x)

/-- The handler that an event runs meets the condition. -/
def KeepsAllOwners (c : Constants) (p : Network × (ℤ → TransferReq)) (e : Event) : Prop :=
  match acting p.1 e with
  | some (id, fs, input) => (p.1.servers id).KeepsOwners c (p.2 id) fs input
  | none => True

/-- All runs, with the requests of the servers' own accept phases. -/
abbrev ReachesStarted (c : Constants) (P : Network × (ℤ → TransferReq) → Event → Prop)
    (disk : ℤ → Disk) : List Event → Network × (ℤ → TransferReq) → Prop :=
  Runs (withGhost (step c) (startedBy c)) P (init c disk, fun _ => {})

/-- The invariant of all servers. -/
structure Owning (c : Constants) (p : Network × (ℤ → TransferReq)) : Prop where
  logged : ∀ x, (p.1.servers x).wal.Logged (p.1.servers x).log
  phases : ∀ x, (p.1.servers x).Phases
  owned : AllLocksOwned c p

theorem owning_init (c : Constants) (disk : ℤ → Disk) : Owning c (init c disk, fun _ => {}) where
  logged := fun _ _ hhas => absurd rfl hhas
  phases := fun _ => ⟨nofun, nofun, nofun⟩
  owned := fun _ => Server.locksOwned_iff.mpr fun y hy => absurd hy (Finset.notMem_empty y)

theorem Owning.step {p q : Network × (ℤ → TransferReq)} (h : Owning c p)
    (hstep : withGhost (step c) (startedBy c) p e = some q) (hkeeps : KeepsAllOwners c p e) :
    Owning c q := by
  obtain ⟨hn, hghost⟩ := withGhost_eq_some.mp hstep
  have hstepped := step_stepped hn
  refine ⟨logged_step h.logged hn, hstepped.server_invariant (I := fun _ s => s.Phases) h.phases
    fun id _ _ _ _ hr => hr.phases (h.phases id), fun x => ?_⟩
  unfold KeepsAllOwners at hkeeps
  unfold startedBy at hghost
  cases hact : acting p.1 e with
  | none =>
    rw [hact] at hghost
    rw [hghost]
    cases hstepped.change with
    | quiet hservers =>
      rw [hservers]
      exact h.owned x
    | handled id fs input r hacts =>
      rw [acting_eq_some.mpr hacts] at hact
      cases hact
  | some a =>
    obtain ⟨id, fs, input⟩ := a
    rw [hact] at hghost hkeeps
    dsimp only at hghost hkeeps
    rw [step_acts hn (acting_eq_some.mp hact), hghost]
    by_cases hx : x = id
    · subst hx
      rw [Function.update_self, Function.update_self]
      exact (Server.react_acted input).locksOwned (h.logged x) (h.phases x) (h.owned x) hkeeps
    · rw [Function.update_of_ne hx, Function.update_of_ne hx]
      exact h.owned x

/-- Every lock of every server has an owner in every state of a run none of whose steps forgets a
transaction that still has a client locked. -/
theorem reaches_allLocksOwned {disk : ℤ → Disk} {es : List Event}
    {p : Network × (ℤ → TransferReq)} (h : ReachesStarted c (KeepsAllOwners c) disk es p) :
    AllLocksOwned c p := by
  refine (h.invariant (I := Owning c) (owning_init c disk) ?_).owned
  exact fun p e q hp hkeeps hstep => hp.step hstep hkeeps

/-- The inputs of intra-shard rounds that find no lock of another one. -/
def Unhindered (c : Constants) (own : TransferReq) (s : Server) : Input → Prop
  | .request (.transfer request) =>
      (s.Proposes c request → c.getClusterIdFromClientId request.txn.receiver = s.clusterId ∧
        s.locks = ∅) ∧
      (s.Commits request → own = request ∧ s.acceptVal = request) ∧ ¬ s.Fails request
  | .request (.accept request) => s.locks = ∅ ∧ s.inCluster c request.r.txn ≠ 1
  | .request (.prepare _) | .request (.commit _) | .reply (.prepare _) _ _
  | .reply (.accept _) _ _ => True
  | _ => False

instance (own : TransferReq) (s : Server) (input : Input) :
    Decidable (Unhindered c own s input) := by
  refine Input.decidable (fun r => ?_) (fun r status response => ?_) input
  · apply Request.decidable (P := fun r => Unhindered c own s (.request r))
    all_goals
      intros
      dsimp only [Unhindered]
      infer_instance
  · apply Request.decidable (P := fun r => Unhindered c own s (.reply r status response))
    all_goals
      intros
      dsimp only [Unhindered]
      infer_instance

/-- The handler that an event runs is of such a round. -/
def AllUnhindered (c : Constants) (p : Network × (ℤ → TransferReq)) (e : Event) : Prop :=
  match acting p.1 e with
  | some (id, _, input) => Unhindered c (p.2 id) (p.1.servers id) input
  | none => True

instance (p : Network × (ℤ → TransferReq)) (e : Event) : Decidable (AllUnhindered c p e) := by
  unfold AllUnhindered
  cases acting p.1 e <;> dsimp only <;> infer_instance

theorem Unhindered.keepsOwners {s : Server} {fs : FileSystem} {input : Input} {own : TransferReq}
    (h : Unhindered c own s input) : s.KeepsOwners c own fs input := by
  have hfree : ∀ txn, s.locks = ∅ → s.Cleared c txn := by
    intro txn hlocks
    right
    rw [hlocks]
    exact Finset.disjoint_empty_right _
  unfold Unhindered at h
  split at h
  · rename_i request
    refine ⟨fun hproposes => ?_, fun hcommits => ?_, fun hfails => absurd hfails h.2.2⟩
    · obtain ⟨hreceiver, hlocks⟩ := h.1 hproposes
      exact ⟨hreceiver, fun _ => .inr (hfree _ hlocks)⟩
    · obtain ⟨hown, hval⟩ := h.2.1 hcommits
      exact ⟨.inl (by rw [hown]), fun _ => .inl (by rw [hval])⟩
  · rename_i request
    exact fun _ _ _ => ⟨.inl fun _ => .inr (hfree _ h.1), fun hone => absurd hone h.2⟩
  all_goals trivial

/-- A transfer that servers 1 and 2 commit. -/
def unhinderedRun : List Event :=
  [.call 1 (.transfer ⟨⟨1, 2, 3⟩, 1⟩), .arrives 0, .arrives 1, .returns 1, .arrives 0, .arrives 3,
    .returns 3, .arrives 0, .arrives 5]

theorem reaches_allLocksOwned_unhinderedRun : ∃ p,
    ReachesStarted .single (KeepsAllOwners .single) (fun _ => .empty) unhinderedRun p ∧
      (p.1.servers 2).balances 2 = 13 ∧ AllLocksOwned .single p := by
  obtain ⟨p, hp, hbalance⟩ := (Option.any_eq_true _ _).mp
    (show (runIf (withGhost (step .single) (startedBy .single)) (AllUnhindered .single)
      (init .single fun _ => .empty, fun _ => {}) unhinderedRun).any
        (fun p => decide ((p.1.servers 2).balances 2 = 13)) = true by decide +kernel)
  have hrun : ReachesStarted .single (KeepsAllOwners .single) (fun _ => .empty) unhinderedRun p := by
    refine (runs_of_runIf hp).mono fun p e h => ?_
    unfold AllUnhindered at h
    unfold KeepsAllOwners
    split at h
    · exact h.keepsOwners
    · trivial
  exact ⟨p, hrun, of_decide_eq_true hbalance, reaches_allLocksOwned hrun⟩

/-- Server 2 accepts a transfer that server 1 then rejects, and a second one after it: the first
one leaves its clients locked. -/
def leakedRun : List Event :=
  [.call 1 (.transfer ⟨⟨1, 2, 3⟩, 1⟩), .arrives 0, .arrives 1, .returns 1, .arrives 0, .arrives 3,
    .complete 3 .deadlineExceeded .allOpen, .complete 4 .deadlineExceeded .allOpen, .arrives 0,
    .call 1 (.transfer ⟨⟨3, 4, 1⟩, 2⟩), .arrives 5, .arrives 6, .returns 6, .arrives 5, .arrives 8,
    .returns 8, .arrives 5, .arrives 10]

/-- The inputs of intra-shard rounds, which prepare nothing. -/
def Intra (c : Constants) (s : Server) (_ : FileSystem) : Input → Prop
  | .request (.accept request) => s.inCluster c request.r.txn ≠ 1
  | .request (.tpcPrepare _) | .reply (.sync _) _ _ => False
  | _ => True

instance (s : Server) (fs : FileSystem) (input : Input) : Decidable (Intra c s fs input) := by
  refine Input.decidable (fun r => ?_) (fun r status response => ?_) input
  · apply Request.decidable (P := fun r => Intra c s fs (.request r))
    all_goals
      intros
      dsimp only [Intra]
      infer_instance
  · apply Request.decidable (P := fun r => Intra c s fs (.reply r status response))
    all_goals
      intros
      dsimp only [Intra]
      infer_instance

/-- Where nothing is prepared, nothing is undecided. -/
theorem reaches_intra {disk : ℤ → Disk} {es : List Event} (h : Reaches c (Each (Intra c)) disk es n)
    (x tid : ℤ) : ¬ (n.servers x).wal.Has tid := by
  refine h.invariant (I := fun n => ¬ (n.servers x).wal.Has tid) (fun hhas => hhas rfl) ?_
  intro n e n' habsent hintra hstep
  rw [step_has_iff hstep habsent]
  rintro ⟨fs, input, hacts, hprepares⟩
  have hinput := hintra.acts hacts
  unfold Server.Prepares at hprepares
  split at hprepares
  · exact hinput
  · exact hinput hprepares.2.2.2.1
  · exact hinput
  · exact hprepares

/-- Both transfers are answered and server 2 has no live transaction, but it keeps two locks. -/
theorem not_allLocksOwned_leakedRun :
    ∃ p, ReachesStarted .single (fun _ _ => True) (fun _ => .empty) leakedRun p ∧
      p.1.calls[0]?.map Call.response = some (some (.transfer ⟨false, 1⟩)) ∧
      p.1.calls[5]?.map Call.response = some (some (.transfer ⟨true, 2⟩)) ∧
      ¬ AllLocksOwned .single p := by
  obtain ⟨n, hn, hcheck⟩ := (Option.any_eq_true _ _).mp
    (show (runIf (step .single) (Each (Intra .single)) (init .single fun _ => .empty)
      leakedRun).any (fun n => decide ((n.servers 2).awaitAcceptDecision = false ∧
        (n.servers 2).accepted = false ∧ (n.servers 2).locks = {1, 2} ∧
        n.calls[0]?.map Call.response = some (some (.transfer ⟨false, 1⟩)) ∧
        n.calls[5]?.map Call.response = some (some (.transfer ⟨true, 2⟩)))) = true by decide +kernel)
  obtain ⟨hawait, haccepted, hlocks, hfirst, hsecond⟩ := of_decide_eq_true hcheck
  have hintra := runs_of_runIf hn
  obtain ⟨own, hrun⟩ := hintra.ghost (startedBy .single) fun _ => {}
  refine ⟨(n, own), hrun.mono fun _ _ _ => trivial, hfirst, hsecond, fun howned => ?_⟩
  have hfree := (howned 2).free hawait haccepted (reaches_intra hintra 2)
  have hlocks : ((n, own).1.servers 2).locks = {1, 2} := hlocks
  rw [hlocks] at hfree
  simp at hfree

end Network
end TpcBank
