import TpcBank.LoneLeader
import TpcBank.CsvRoundTrip

/-! A lone leader on the 32-bit `int`s in which the source keeps the balances. No handler checks
that a balance has room for what a client receives; one that has not becomes negative. -/
namespace TpcBank
open Transition

namespace Server

variable {c : Constants} {fs : FileSystem} {s s' : Server} {input : Input} {r : Handled}
  {book : ℤ → Request} {txn : Transaction}

/-- The balances as `int`s. The stored texts, which no handler reads, stay as they are. -/
def wrap (s : Server) : Server :=
  { s with balances := fun x => toInt (s.balances x) }

/-- Wrapping once after some additions is wrapping after each of them. -/
theorem wrap_addBalance (s : Server) (x amount : ℤ) :
    (s.wrap.addBalance x amount).wrap = (s.addBalance x amount).wrap := by
  unfold wrap addBalance
  congr 1
  funext y
  simp only [Function.update_apply]
  split_ifs
  · exact Int.bmod_add_bmod
  · exact Int.bmod_bmod

/-- One handler on `int`s. A handler that changes balances does so after it has read them, and
by additions only, so they are wrapped once at its end (`wrap_addBalance`). -/
def intStep (c : Constants) (s : Server) (e : Input × FileSystem) : Option Server :=
  (step c s e).map wrap

theorem intStep_eq_some :
    intStep c s (input, fs) = some s' ↔ (s.react c fs input).server.wrap = s' :=
  Option.some_inj

theorem wrap_of_ints (h : ∀ x, IsInt (s.balances x)) : s.wrap = s := by
  have hsame : (fun x => toInt (s.balances x)) = s.balances := funext fun x => toInt_of_isInt (h x)
  unfold wrap
  rw [hsame]

/-- The amounts of the polls are `int`s. -/
def IntAmount : Input → Prop
  | .request q => ∀ request ∈ q.polled, IsInt request.txn.amount
  | .reply _ _ _ => True

instance (input : Input) : Decidable (IntAmount input) := by
  refine Input.decidable (fun q => ?_) (fun q status response => isTrue trivial) input
  dsimp only [IntAmount]
  infer_instance

/-! ### The condition -/

/-- The transaction that a handler applies to the balances of a lone leader. -/
def applied (s : Server) : Input → Option Transaction
  | .request (.transfer request) => if s.Commits request then some request.txn else none
  | .request (.tpcCommit request) =>
      if s.iAmDisconnected then none else (s.wal.pending request.tid).map WALEntry.txn
  | _ => none

/-- The receiver of the transaction that a handler applies has room for the amount. -/
def CreditFits (c : Constants) (s : Server) (e : Input × FileSystem) : Prop :=
  ∀ txn ∈ s.applied e.1, s.isClientInCluster c txn.receiver = true →
    IsInt (movedBalances s.balances txn txn.receiver)

instance (c : Constants) (s : Server) (e : Input × FileSystem) : Decidable (s.CreditFits c e) :=
  inferInstanceAs (Decidable (∀ txn ∈ s.applied e.1, _ → _))

/-! ### The invariant -/

/-- What a lone leader keeps while no credit overflows. -/
structure LoneInts (c : Constants) (clusterId : ℤ) (book : ℤ → Request) (s : Server) : Prop where
  cluster : s.clusterId = clusterId
  lone : s.Lone c book
  ints : ∀ x, IsInt (s.balances x)

variable {clusterId : ℤ}

/-- A handler that applies a transaction moves its amount between the clients of the cluster. -/
theorem react_applied (h : s.Lone c book) (hfs : fs.working)
    (hinput : LoneInput c s.clusterId input) (happlied : s.applied input = some txn) :
    (s.react c fs input).server.balances = clusterBalances c s.clusterId s.balances txn := by
  unfold applied at happlied
  split at happlied
  · rename_i request
    rw [Option.ite_none_right_eq_some] at happlied
    obtain ⟨hcommits, htxn⟩ := happlied
    obtain rfl := Option.some.inj htxn
    obtain ⟨-, -, hentry⟩ := WAL.commitTransaction_spec (hfs 0) h.indexed request s.acceptNum
    show (s.runPaxos c fs request false).server.balances = _
    rw [runPaxos_of_commits hcommits, finishCommit_intra]
    dsimp only
    rw [hentry]
    funext x
    unfold clusterBalances
    split_ifs with hx
    · rfl
    -- both clients are in the cluster, so no other client is moved
    · obtain ⟨-, hsender, hreceiver⟩ := hinput
      have hs : request.txn.sender ≠ x := fun heq => hx (heq ▸ hsender)
      have hr : request.txn.receiver ≠ x := fun heq => hx (heq ▸ hreceiver)
      rw [movedBalances, if_neg hs, if_neg hr, sub_zero, add_zero]
  · rename_i request
    rw [Option.ite_none_left_eq_some] at happlied
    obtain ⟨hconn, hpending⟩ := happlied
    obtain ⟨e, he, rfl⟩ := Option.map_eq_some_iff.mp hpending
    obtain ⟨wal, -, -, heq⟩ := processTpcDecision_found (c := c) true (by simpa using hconn) hfs
      h.indexed he
    show (s.processTpcDecision c fs request true).balances = _
    rw [heq]
    rfl
  · cases happlied

/-- A handler that applies none leaves the balances alone. -/
theorem react_unapplied (h : s.Lone c book) (hcluster : 0 < s.clusterId)
    (hinput : LoneInput c s.clusterId input) (happlied : s.applied input = none) :
    (s.react c fs input).server.balances = s.balances := by
  have hacted : Acted c fs s input _ := react_acted input
  generalize s.react c fs input = r at hacted ⊢
  cases hacted with
  | accepting isCrossShard request d hown hprep hmaj hcond hd =>
    subst hd
    cases isCrossShard <;> rfl
  | committed request d hown hprep hacc hmaj hd =>
    rw [applied, if_pos ⟨hown, hprep, hacc, hmaj⟩] at happlied
    cases happlied
  | accepted => exact hinput.elim
  | released => exact hinput.elim
  | decided isCommit request d locks hconn hd hlocks =>
    subst hd
    dsimp only [data_balances]
    cases isCommit with
    | false =>
      rw [processTpcDecision_eq request false hconn]
      rfl
    | true =>
      have hpending : (s.wal.pending request.tid).map WALEntry.txn = none := by
        simpa [Request.decision, applied, hconn] using happlied
      rw [processTpcDecision_unknown true hcluster h.indexed (Option.map_eq_none_iff.mp hpending)]
  | synced request response d hack hd =>
    have hnone : response.logs = [] := hinput
    rw [hnone, syncEntries_nil] at hd
    subst hd
    rfl
  | _ => rfl

/-- The transaction that a handler of a lone leader applies is one in flight. -/
theorem Lone.applied (h : s.Lone c book) (hinput : LoneInput c s.clusterId input)
    (hbook : ∀ q request, input = .request q → q.polled = some request → book request.tid = q)
    (happlied : s.applied input = some txn) :
    ∃ request, request.txn = txn ∧ s.InFlight c request ∧ 0 ≤ txn.amount ∧
      (book request.tid).polled = some request := by
  unfold Server.applied at happlied
  split at happlied
  · rename_i request
    rw [Option.ite_none_right_eq_some] at happlied
    obtain ⟨⟨hown, -, hacc, -⟩, htxn⟩ := happlied
    obtain rfl := Option.some.inj htxn
    have hpoll : book request.tid = .poll false request := hbook _ request rfl rfl
    have hval : request = s.acceptVal := h.polled hpoll hown hacc
    refine ⟨request, rfl, .inr ⟨hacc, ?_, hval⟩, hinput.1, ?_⟩
    · rw [← hval]
      exact inCluster_transfer hinput
    · rw [hpoll, Request.polled_poll]
  · rename_i request
    rw [Option.ite_none_left_eq_some] at happlied
    obtain ⟨e, he, rfl⟩ := Option.map_eq_some_iff.mp happlied.2
    obtain ⟨hbooked, hamount, -⟩ := h.prepared _ e he
    refine ⟨⟨e.txn, request.tid⟩, rfl, .inl ⟨e, he, rfl⟩, hamount, ?_⟩
    rw [hbooked]
    rfl
  · cases happlied

/-! ### One handler -/

/-- A balance that has no room for an amount becomes negative. -/
theorem toInt_neg {z : ℤ} (hlow : 2 ^ 31 ≤ z) (hhigh : z < 2 ^ 32) : toInt z < 0 := by
  unfold toInt
  rw [Int.bmod_def]
  omega

/-- A reservation that is in flight and an amount that is an `int`: only the receiver's balance
can leave the `int`s. -/
theorem LoneInts.settled (h : LoneInts c clusterId book s) {request : TransferReq}
    (hin : s.InFlight c request) (hamount : 0 ≤ request.txn.amount) {x : ℤ}
    (hx : request.txn.receiver = x → s.isClientInCluster c x = true →
      IsInt (movedBalances s.balances request.txn x)) :
    IsInt (clusterBalances c s.clusterId s.balances request.txn x) := by
  have hint : IsInt (s.balances x) := h.ints x
  unfold clusterBalances
  split_ifs with hcluster
  · by_cases hreceiver : request.txn.receiver = x
    · exact hx hreceiver (isClientInCluster_iff.mpr hcluster)
    by_cases hsender : request.txn.sender = x
    · have hitem := Constants.mem_items.mpr ⟨.inl hsender.symm, hcluster⟩
      have hcover := h.lone.covers hin hamount hitem
      unfold movedBalances at hcover ⊢
      unfold IsInt at hint ⊢
      rw [if_pos hsender, if_neg hreceiver] at hcover ⊢
      omega
    · rw [movedBalances, if_neg hsender, if_neg hreceiver, sub_zero, add_zero]
      exact hint
  · exact hint

/-- A handler whose credit fits leaves `int`s, so that nothing is lost when they are stored. -/
theorem LoneInts.react (h : LoneInts c clusterId book s) (hcluster : 0 < clusterId)
    (hfs : fs.working) (hinput : LoneInput c clusterId input)
    (hbook : ∀ q request, input = .request q → q.polled = some request → book request.tid = q)
    (hfits : s.CreditFits c (input, fs)) :
    LoneInts c clusterId book (s.react c fs input).server.wrap := by
  obtain rfl := h.cluster
  have hacted : Acted c fs s input _ := react_acted input
  have hints : ∀ x, IsInt ((s.react c fs input).server.balances x) := by
    intro x
    cases happlied : s.applied input with
    | none =>
      rw [react_unapplied h.lone hcluster hinput happlied]
      exact h.ints x
    | some txn =>
      obtain ⟨request, rfl, hin, hamount, -⟩ := h.lone.applied hinput hbook happlied
      rw [react_applied h.lone hfs hinput happlied]
      refine h.settled hin hamount ?_
      rintro rfl hx
      exact hfits _ happlied hx
  rw [wrap_of_ints hints]
  refine ⟨?_, hacted.lone h.lone hcluster hfs hinput hbook, hints⟩
  exact congrArg (fun p => p.2.1) hacted.identity

/-- A handler whose credit does not fit leaves its receiver overdrawn. -/
theorem LoneInts.overdrawn (h : LoneInts c clusterId book s) (hfs : fs.working)
    (hinput : LoneInput c clusterId input)
    (hbook : ∀ q request, input = .request q → q.polled = some request → book request.tid = q)
    (hbookInt : ∀ tid, ∀ request ∈ (book tid).polled, IsInt request.txn.amount)
    (hfits : ¬ s.CreditFits c (input, fs)) :
    ¬ (s.react c fs input).server.wrap.Isolated c := by
  obtain rfl := h.cluster
  simp only [CreditFits, not_forall] at hfits
  obtain ⟨txn, happlied, hreceiver, hover⟩ := hfits
  obtain ⟨request, rfl, hin, hamount, hbooked⟩ := h.lone.applied hinput hbook happlied
  have hmember := isClientInCluster_iff.mp hreceiver
  have hint : IsInt request.txn.amount := hbookInt _ request hbooked
  have hbalance : IsInt (s.balances request.txn.receiver) := h.ints _
  have hcover := h.lone.covers hin hamount (Constants.mem_items.mpr ⟨.inr rfl, hmember⟩)
  unfold IsInt at hint hbalance hover
  have hle : movedBalances s.balances request.txn request.txn.receiver ≤
      s.balances request.txn.receiver + request.txn.amount := by
    unfold movedBalances
    split_ifs <;> omega
  have hneg : (s.react c fs input).server.wrap.balances request.txn.receiver < 0 := by
    show toInt ((s.react c fs input).server.balances request.txn.receiver) < 0
    rw [react_applied h.lone hfs hinput happlied, clusterBalances, if_pos hmember]
    apply toInt_neg <;> omega
  have hsame : (s.react c fs input).server.wrap.clusterId = s.clusterId :=
    congrArg (fun p => p.2.1) (react_acted input : Acted c fs s input _).identity
  intro hisolated
  have hsolvent := hisolated.solvent _ (isClientInCluster_iff.mpr (hmember.trans hsame.symm))
  omega

/-! ### Runs -/

theorem loneInts_init (c : Constants) (book : ℤ → Request) (id : ℤ) (disk : Disk) :
    LoneInts c (c.getClusterIdFromServerId id) book (init c id disk) := by
  refine ⟨rfl, lone_init c book id disk, fun x => ?_⟩
  show IsInt (if _ then 10 else 0)
  split_ifs <;> decide

/-- Distinct tids of polls with `int` amounts can be looked up as such polls. -/
theorem DistinctTids.exists_intBook {es : List (Input × FileSystem)} (h : DistinctTids es)
    (hint : ∀ e ∈ es, IntAmount e.1) :
    ∃ book : ℤ → Request, (∀ e ∈ es, ∀ q request, e.1 = .request q →
      q.polled = some request → book request.tid = q) ∧
      ∀ tid, ∀ request ∈ (book tid).polled, IsInt request.txn.amount := by
  obtain ⟨book, hbook⟩ := h.exists_book
  refine ⟨fun tid => if ∀ request ∈ (book tid).polled, IsInt request.txn.amount then book tid
    else .logs, ?_, ?_⟩
  · intro e he q request hq hpolled
    have hamount : IntAmount e.1 := hint e he
    rw [hq] at hamount
    dsimp only
    rw [hbook e he q request hq hpolled]
    exact if_pos hamount
  · intro tid request hrequest
    dsimp only at hrequest
    split_ifs at hrequest with hamounts
    · exact hamounts request hrequest
    · cases hrequest

/-- In a run of a lone leader with distinct tids, on `int` balances, the transactions in flight
stay isolated and no client of the cluster is ever overdrawn, exactly when every receiver that is
credited has room for the amount. -/
theorem stays_isolated_iff (c : Constants) {id : ℤ} (hid : 0 < id) (disk : Disk)
    {es : List (Input × FileSystem)} {s : Server}
    (hrun : run (intStep c) (init c id disk) es = some s)
    (hes : ∀ e ∈ es, e.2.working ∧ LoneInput c (c.getClusterIdFromServerId id) e.1 ∧
      IntAmount e.1) (htids : DistinctTids es) :
    Throughout (intStep c) (fun s => s.Isolated c) (init c id disk) es ↔
      Runs (intStep c) (fun s e => s.CreditFits c e) (init c id disk) es s := by
  obtain ⟨book, hbook, hbookInt⟩ := htids.exists_intBook fun e he => (hes e he).2.2
  have hcluster : 0 < c.getClusterIdFromServerId id := c.clusterIdFromServerId_pos hid
  refine (runs_of_forall (P := fun e => e ∈ es) hrun fun _ he => he).throughout_iff_invariant
    (J := LoneInts c (c.getClusterIdFromServerId id) book) (loneInts_init c book id disk)
    (fun _ h => h.lone.isolated) ?_ ?_
  · rintro s ⟨input, fs⟩ t h he hfits hstep
    obtain ⟨hfs, hinput, -⟩ := hes _ he
    obtain rfl := intStep_eq_some.mp hstep
    exact h.react hcluster hfs hinput (hbook _ he) hfits
  · rintro s ⟨input, fs⟩ t h he hstep hisolated
    obtain ⟨hfs, hinput, -⟩ := hes _ he
    obtain rfl := intStep_eq_some.mp hstep
    by_contra hfits
    exact h.overdrawn hfs hinput (hbook _ he) hbookInt hfits hisolated

/-- A leader prepares a cross-shard transfer to client 1, gets its decision to commit while a
transfer out of client 2 is in its accept phase. -/
def creditInputs (amount : ℤ) : List (Input × FileSystem) :=
  [.request (.tpcPrepare ⟨⟨1500, 1, amount⟩, 7⟩),
    .reply (.prepare ⟨⟨1, 1⟩, -1⟩) .ok (.prepare { ack := true, ballot := ⟨1, 1⟩ }),
    .request (.tpcPrepare ⟨⟨1500, 1, amount⟩, 7⟩),
    .reply (.accept ⟨⟨1, 1⟩, ⟨⟨1500, 1, amount⟩, 7⟩⟩) .ok (.accept ⟨true, ⟨1, 1⟩⟩),
    .request (.tpcPrepare ⟨⟨1500, 1, amount⟩, 7⟩), .request (.transfer ⟨⟨2, 3, 4⟩, 8⟩),
    .reply (.prepare ⟨⟨2, 1⟩, 0⟩) .ok (.prepare { ack := true, ballot := ⟨2, 1⟩ }),
    .request (.transfer ⟨⟨2, 3, 4⟩, 8⟩), .request (.tpcCommit ⟨7⟩)].map
      fun input => (input, .allOpen)

theorem stays_isolated_three : ∃ s,
    run (intStep .standard) (init .standard 1 .empty) (creditInputs 3) = some s ∧
      s.balances 1 = 13 ∧ s.InFlight .standard ⟨⟨2, 3, 4⟩, 8⟩ ∧
      Throughout (intStep .standard) (fun s => s.Isolated .standard) (init .standard 1 .empty)
        (creditInputs 3) := by
  obtain ⟨s, hs, hcheck⟩ := (Option.any_eq_true _ _).mp (show (runIf (intStep .standard)
    (fun s e => s.CreditFits .standard e) (init .standard 1 .empty) (creditInputs 3)).any
      (fun s => s.balances 1 = 13 ∧ s.awaitAcceptDecision = true ∧
        s.inCluster .standard s.acceptVal.txn = 2 ∧ ⟨⟨2, 3, 4⟩, 8⟩ = s.acceptVal) = true by
    decide +kernel)
  obtain ⟨hbalance, hflight⟩ := of_decide_eq_true hcheck
  have hruns := runs_of_runIf hs
  refine ⟨s, hruns.run_eq, hbalance, .inr hflight, ?_⟩
  refine (stays_isolated_iff .standard (by decide) .empty hruns.run_eq ?_
    (by decide +kernel)).mpr hruns
  simp only [creditInputs, List.mem_map]
  rintro e ⟨input, hinput, rfl⟩
  refine ⟨FileSystem.allOpen_working, ?_⟩
  revert input
  decide +kernel

/-- A credit of the greatest `int` leaves its receiver overdrawn. -/
theorem not_stays_isolated_maximum :
    ¬ Throughout (intStep .standard) (fun s => s.Isolated .standard) (init .standard 1 .empty)
        (creditInputs (2 ^ 31 - 1)) := by
  intro h
  have hrun : run (intStep .standard) (init .standard 1 .empty) (creditInputs (2 ^ 31 - 1)) =
    some _ := rfl
  have hsolvent := (h _ [] _ (List.append_nil _).symm hrun).solvent 1 (by decide +kernel)
  revert hsolvent
  decide +kernel

end Server
end TpcBank
