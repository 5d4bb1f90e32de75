import TpcBank.Replay

/-! Processing 2PC decisions. The first decision of a prepared tid settles it and every other one
does nothing, so only which decisions come first matters and not their order. -/
namespace TpcBank
open Transition Decimal

/-- A TpcCommit or a TpcAbort. -/
structure TpcDecision where
  request : TpcTid
  isCommit : Bool

namespace Server

variable {c : Constants} {fs : FileSystem} {s : Server} {clusterId : ℤ}

/-- Decisions processed one after another, each with what the file system does meanwhile. -/
def decideAll (c : Constants) (s : Server) (ds : List (TpcDecision × FileSystem)) : Server :=
  ds.foldl (fun s d => s.processTpcDecision c d.2 d.1.request d.1.isCommit) s

/-! ### The property -/

/-- The balances, the stored values, the locks and the indexed tids are the same, and the logs
differ in their order at most. -/
structure SameOutcome (s t : Server) : Prop where
  balances : s.balances = t.balances
  db : s.db = t.db
  locks : s.locks = t.locks
  keys : ∀ tid, (s.wal.transferIndex tid).isSome = (t.wal.transferIndex tid).isSome
  log : s.log.Perm t.log

/-- Decisions are idempotent and independent of their order. -/
structure DecisionsSettle (c : Constants) (s : Server) : Prop where
  first : ∀ ds d fs, (∀ p ∈ ds, p.2.working) → fs.working → (∃ p ∈ ds, p.1.request = d.request) →
    s.decideAll c (ds ++ [(d, fs)]) = s.decideAll c ds
  unprepared : ∀ ds d fs, (∀ p ∈ ds, p.2.working) → fs.working →
    (s.decideAll c ds).wal.transferIndex d.request.tid = none →
    s.decideAll c (ds ++ [(d, fs)]) = s.decideAll c ds
  order : ∀ ds ds', (∀ p ∈ ds, p.2.working) → (∀ p ∈ ds', p.2.working) →
    (ds.map Prod.fst).Perm (ds'.map Prod.fst) → (ds.map fun p => p.1.request.tid).Nodup →
    (s.decideAll c ds).SameOutcome (s.decideAll c ds')

/-! ### What a decision does to the outcome -/

/-- The balances after a decision on a transaction. -/
def settledBalances (c : Constants) (clusterId : ℤ) (isCommit : Bool) (balances : ℤ → ℤ)
    (txn : Transaction) : ℤ → ℤ :=
  if isCommit then clusterBalances c clusterId balances txn else balances

/-- The clients whose balance a decision writes. -/
def settledClients (c : Constants) (clusterId : ℤ) (isCommit : Bool) (txn : Transaction) : List ℤ :=
  if isCommit then clusterClients c clusterId txn else []

theorem settledBalances_comm {isCommit isCommit' : Bool} (balances : ℤ → ℤ)
    (txn txn' : Transaction) :
    settledBalances c clusterId isCommit' (settledBalances c clusterId isCommit balances txn) txn' =
      settledBalances c clusterId isCommit (settledBalances c clusterId isCommit' balances txn')
        txn := by
  cases isCommit with
  | false => rfl
  | true =>
    cases isCommit' with
    | false => rfl
    | true =>
      funext x
      simp only [settledBalances, clusterBalances, movedBalances, if_true]
      split_ifs <;> ring

theorem settledBalances_of_notMem {isCommit : Bool} {balances : ℤ → ℤ} {txn : Transaction} {x : ℤ}
    (hx : x ∉ settledClients c clusterId isCommit txn) :
    settledBalances c clusterId isCommit balances txn x = balances x := by
  cases isCommit with
  | false => rfl
  | true =>
    simp only [settledClients, clusterClients, if_true, List.mem_filter, List.mem_cons,
      List.not_mem_nil, or_false, decide_eq_true_eq, not_and] at hx
    simp only [settledBalances, clusterBalances, if_true]
    split_ifs with hcluster
    · have hne : txn.sender ≠ x ∧ txn.receiver ≠ x :=
        ⟨fun h => hx (.inr h.symm) hcluster, fun h => hx (.inl h.symm) hcluster⟩
      rw [movedBalances, if_neg hne.1, if_neg hne.2, sub_zero, add_zero]
    · rfl

theorem storedBalances_other {db : Text → Option Text} {balances : ℤ → ℤ} {clients : List ℤ}
    {key : Text} (h : ∀ x, key ≠ decimal x) : storedBalances db balances clients key = db key := by
  induction clients with
  | nil => rfl
  | cons y clients ih =>
    simp only [storedBalances, List.foldr_cons] at ih ⊢
    rw [Function.update_of_ne (h y), ih]

/-- Balances stored one after the other can be stored in either order, when each time the ones
of the other clients are final already. -/
theorem storedBalances_comm {db : Text → Option Text} {b b' final : ℤ → ℤ} {clients clients' : List ℤ}
    (h : ∀ x ∉ clients', b x = final x) (h' : ∀ x ∉ clients, b' x = final x) :
    storedBalances (storedBalances db b clients) final clients' =
      storedBalances (storedBalances db b' clients') final clients := by
  funext key
  by_cases hkey : ∃ x, key = decimal x
  · obtain ⟨x, rfl⟩ := hkey
    simp only [storedBalances_apply]
    by_cases hx : x ∈ clients <;> by_cases hx' : x ∈ clients' <;>
      simp only [hx, hx', if_true, if_false]
    · rw [h x hx']
    · rw [h' x hx]
  · have hne : ∀ x, key ≠ decimal x := fun x heq => hkey ⟨x, heq⟩
    simp only [storedBalances_other hne]

/-- What the decisions of a server change, with the log up to its order. -/
structure Outcome where
  balances : ℤ → ℤ
  db : Text → Option Text
  locks : Finset ℤ
  pending : ℤ → Option WALEntry
  log : Multiset WALEntry

def outcome (s : Server) : Outcome :=
  ⟨s.balances, s.db, s.locks, s.wal.pending, s.log⟩

/-- The outcome of settling a pending transaction. -/
def Outcome.settle (c : Constants) (clusterId : ℤ) (o : Outcome) (d : TpcDecision) (e : WALEntry) :
    Outcome where
  balances := settledBalances c clusterId d.isCommit o.balances e.txn
  db := storedBalances o.db (settledBalances c clusterId d.isCommit o.balances e.txn)
    (settledClients c clusterId d.isCommit e.txn)
  locks := o.locks \ c.items clusterId e.txn
  pending := Function.update o.pending d.request.tid none
  log := { e with status := decision d.isCommit } ::ₘ o.log

def Outcome.decide (c : Constants) (clusterId : ℤ) (o : Outcome) (d : TpcDecision) : Outcome :=
  match o.pending d.request.tid with
  | none => o
  | some e => o.settle c clusterId d e

theorem Outcome.decide_comm (o : Outcome) {d d' : TpcDecision}
    (hne : d.request.tid ≠ d'.request.tid) :
    (o.decide c clusterId d).decide c clusterId d' =
      (o.decide c clusterId d').decide c clusterId d := by
  have hother : ∀ (o : Outcome) (d d' : TpcDecision) (e : WALEntry),
      d.request.tid ≠ d'.request.tid →
      (o.settle c clusterId d e).pending d'.request.tid = o.pending d'.request.tid := by
    intro o d d' e h
    exact Function.update_of_ne h.symm _ _
  cases hp : o.pending d.request.tid with
  | none =>
    cases hp' : o.pending d'.request.tid with
    | none => simp only [Outcome.decide, hp, hp']
    | some e' => simp only [Outcome.decide, hp, hp', hother o d' d e' hne.symm]
  | some e =>
    cases hp' : o.pending d'.request.tid with
    | none => simp only [Outcome.decide, hp, hp', hother o d d' e hne]
    | some e' =>
      simp only [Outcome.decide, hp, hp', hother o d d' e hne, hother o d' d e' hne.symm]
      have hbalances : settledBalances c clusterId d'.isCommit (settledBalances c clusterId
          d.isCommit o.balances e.txn) e'.txn = _ := settledBalances_comm o.balances e.txn e'.txn
      simp only [Outcome.settle, Outcome.mk.injEq]
      refine ⟨hbalances, ?_, sdiff_sdiff_comm, Function.update_comm hne _ _ _,
        Multiset.cons_swap _ _ _⟩
      rw [← hbalances]
      refine storedBalances_comm (fun x hx => (settledBalances_of_notMem hx).symm) fun x hx => ?_
      rw [hbalances]
      exact (settledBalances_of_notMem hx).symm

/-! ### The server and its outcome -/

/-- What makes the decisions of a server read back what was prepared. -/
structure Readable (s : Server) : Prop where
  connected : s.iAmDisconnected = false
  cluster : 0 < s.clusterId
  indexed : s.wal.Indexed
  positive : ∀ tid e, s.wal.pending tid = some e → 0 < tid

/-- A decision changes the server as it changes the outcome, and the transaction it settles is no
longer prepared. -/
theorem Readable.decide (h : s.Readable) (hfs : fs.working) (d : TpcDecision) :
    (s.processTpcDecision c fs d.request d.isCommit).Readable ∧
      (s.processTpcDecision c fs d.request d.isCommit).clusterId = s.clusterId ∧
      (s.processTpcDecision c fs d.request d.isCommit).outcome =
        s.outcome.decide c s.clusterId d ∧
      (s.processTpcDecision c fs d.request d.isCommit).wal.transferIndex d.request.tid = none := by
  obtain ⟨hconn, hcluster, hindexed, hpositive⟩ := h
  cases hp : s.wal.pending d.request.tid with
  | none =>
    rw [processTpcDecision_unknown d.isCommit hcluster hindexed hp]
    refine ⟨⟨hconn, hcluster, hindexed, hpositive⟩, rfl, ?_, hindexed.pending_eq_none.mp hp⟩
    simp only [Outcome.decide, outcome, hp]
  | some e =>
    have hpos := hpositive _ _ hp
    obtain ⟨wal, hwal, hpending, heq⟩ := processTpcDecision_pending (c := c) d.isCommit hconn hfs
      hindexed hp (by omega)
    have hafter : wal.transferIndex d.request.tid = none := by
      rw [← hwal.pending_eq_none, hpending, Function.update_self]
    have hpositive' : ∀ tid e', wal.pending tid = some e' → 0 < tid := by
      intro tid e' he'
      rw [hpending] at he'
      by_cases ht : tid = d.request.tid
      · rwa [ht]
      · exact hpositive tid e' (by rwa [Function.update_of_ne ht] at he')
    have hlog : ((s.log ++ [{ e with status := decision d.isCommit }] : List WALEntry) :
        Multiset WALEntry) = { e with status := decision d.isCommit } ::ₘ (s.log : Multiset WALEntry) :=
      Multiset.coe_eq_coe.mpr (List.perm_append_singleton _ _)
    rw [heq]
    cases hcommit : d.isCommit with
    | false =>
      rw [hcommit] at hlog
      refine ⟨⟨hconn, hcluster, hwal, hpositive'⟩, rfl, ?_, hafter⟩
      simp only [Outcome.decide, Outcome.settle, outcome, hp, hpending, hcommit, hlog, settledBalances,
        settledClients, Bool.false_eq_true, if_false]
      rfl
    | true =>
      rw [hcommit] at hlog
      refine ⟨⟨hconn, hcluster, hwal, hpositive'⟩, rfl, ?_, hafter⟩
      simp only [Outcome.decide, Outcome.settle, outcome, applyTxn, hp, hpending, hcommit, hlog,
        settledBalances, settledClients, if_true]

theorem decideAll_snoc (ds : List (TpcDecision × FileSystem)) (d : TpcDecision) :
    s.decideAll c (ds ++ [(d, fs)]) =
      (s.decideAll c ds).processTpcDecision c fs d.request d.isCommit := by
  simp only [decideAll, List.foldl_append, List.foldl_cons, List.foldl_nil]

/-- Once a tid is not prepared it stays so, and its decisions do nothing. -/
theorem Readable.decideAll (h : s.Readable) (ds : List (TpcDecision × FileSystem))
    (hds : ∀ p ∈ ds, p.2.working) :
    (s.decideAll c ds).Readable ∧ (s.decideAll c ds).clusterId = s.clusterId ∧
      (s.decideAll c ds).outcome =
        (ds.map Prod.fst).foldl (Outcome.decide c s.clusterId) s.outcome ∧
      ∀ tid, (s.wal.transferIndex tid = none ∨ ∃ p ∈ ds, p.1.request.tid = tid) →
        (s.decideAll c ds).wal.transferIndex tid = none := by
  induction ds using List.reverseRecOn with
  | nil => exact ⟨h, rfl, rfl, fun tid hnone => hnone.elim id fun ⟨p, hp, _⟩ => nomatch hp⟩
  | append_singleton ds p ih =>
    obtain ⟨d, fs⟩ := p
    obtain ⟨hread, hcluster, houtcome, hindex⟩ := ih fun p hp => hds p (List.mem_append_left _ hp)
    have hfs : fs.working := hds (d, fs) (List.mem_append_right _ (List.mem_singleton_self _))
    obtain ⟨hread', hcluster', houtcome', hafter⟩ := hread.decide (c := c) hfs d
    rw [decideAll_snoc]
    refine ⟨hread', hcluster'.trans hcluster, ?_, fun tid hnone => ?_⟩
    · rw [houtcome', houtcome, hcluster, List.map_append, List.foldl_append]
      rfl
    · by_cases ht : tid = d.request.tid
      · rw [ht]
        exact hafter
      · have hbefore : (s.decideAll c ds).wal.transferIndex tid = none := by
          apply hindex
          rcases hnone with hnone | ⟨p, hp, htid⟩
          · exact .inl hnone
          · rcases List.mem_append.mp hp with hp | hp
            · exact .inr ⟨p, hp, htid⟩
            · obtain rfl := List.mem_singleton.mp hp
              exact absurd htid.symm ht
        rw [← hread'.indexed.pending_eq_none]
        rw [← hread.indexed.pending_eq_none] at hbefore
        have hpending := congrArg (fun o => o.pending tid) houtcome'
        refine hpending.trans ?_
        unfold Outcome.decide
        split
        · exact hbefore
        · exact (Function.update_of_ne ht _ _).trans hbefore

theorem Readable.unprepared (h : s.Readable) {d : TpcDecision}
    (hnone : s.wal.transferIndex d.request.tid = none) :
    s.processTpcDecision c fs d.request d.isCommit = s :=
  processTpcDecision_unknown d.isCommit h.cluster h.indexed (h.indexed.pending_eq_none.mpr hnone)

theorem Readable.settles (h : s.Readable) : s.DecisionsSettle c where
  first := by
    rintro ds d fs hds - ⟨p, hp, hsame⟩
    obtain ⟨hread, -, -, hindex⟩ := h.decideAll (c := c) ds hds
    rw [decideAll_snoc]
    exact hread.unprepared (hindex _ (.inr ⟨p, hp, congrArg TpcTid.tid hsame⟩))
  unprepared := by
    intro ds d fs hds _ hnone
    rw [decideAll_snoc]
    exact (h.decideAll ds hds).1.unprepared hnone
  order := by
    intro ds ds' hds hds' hperm hnodup
    obtain ⟨hread, -, houtcome, -⟩ := h.decideAll (c := c) ds hds
    obtain ⟨hread', -, houtcome', -⟩ := h.decideAll (c := c) ds' hds'
    have hcomm : ∀ d ∈ ds.map Prod.fst, ∀ d' ∈ ds.map Prod.fst, ∀ o : Outcome,
        (o.decide c s.clusterId d).decide c s.clusterId d' =
          (o.decide c s.clusterId d').decide c s.clusterId d := by
      intro d hd d' hd' o
      by_cases hsame : d.request.tid = d'.request.tid
      · have hinj : ((ds.map Prod.fst).map fun d => d.request.tid).Nodup := by
          rwa [List.map_map]
        rw [List.inj_on_of_nodup_map hinj hd hd' hsame]
      · exact o.decide_comm hsame
    have hsame : (s.decideAll c ds).outcome = (s.decideAll c ds').outcome := by
      rw [houtcome, houtcome']
      exact hperm.foldl_eq' hcomm _
    unfold outcome at hsame
    rw [Outcome.mk.injEq] at hsame
    obtain ⟨hbalances, hdb, hlocks, hpending, hlog⟩ := hsame
    refine ⟨hbalances, hdb, hlocks, fun tid => ?_, Multiset.coe_eq_coe.mp hlog⟩
    have hiff : (s.decideAll c ds).wal.transferIndex tid = none ↔
        (s.decideAll c ds').wal.transferIndex tid = none := by
      rw [← hread.indexed.pending_eq_none, ← hread'.indexed.pending_eq_none, hpending]
    rw [Bool.eq_iff_iff, Option.isSome_iff_ne_none, Option.isSome_iff_ne_none]
    exact not_congr hiff

/-- In every state that a server reaches, while it is connected, only the first decision of each
prepared tid does anything, and the order of the first decisions does not matter. -/
theorem decisions_settle (c : Constants) {id : ℤ} (hid : 0 < id) (disk : Disk)
    {es : List (Input × FileSystem)} {s : Server}
    (h : Runs (step c) (fun _ e => e.2.working ∧ e.1.tidsPositive) (init c id disk) es s)
    (hconn : s.iAmDisconnected = false) : s.DecisionsSettle c := by
  obtain ⟨hcluster, hreplayed⟩ := runs_replayed c hid disk h
  have hread : s.Readable := ⟨hconn, hcluster, hreplayed.indexed, hreplayed.positive⟩
  exact hread.settles

/-- A follower prepares a transfer out of client 1 and one out of client 2. -/
def twoPrepared : List (Input × FileSystem) :=
  [.prepare ⟨⟨1, 2⟩, -1⟩, .accept ⟨⟨1, 2⟩, ⟨⟨1, 1500, 3⟩, 7⟩⟩, .commit ⟨⟨1, 2⟩⟩,
    .prepare ⟨⟨2, 2⟩, 0⟩, .accept ⟨⟨2, 2⟩, ⟨⟨2, 1600, 4⟩, 8⟩⟩].map fun r => (.request r, .allOpen)

theorem decisions_settle_twoPrepared :
    ∃ s, run (step .standard) (init .standard 1 .empty) twoPrepared = some s ∧
      (s.decideAll .standard [(⟨⟨7⟩, true⟩, .allOpen), (⟨⟨8⟩, false⟩, .allOpen)]).balances 1 = 7 ∧
      (s.decideAll .standard [(⟨⟨7⟩, true⟩, .allOpen), (⟨⟨8⟩, false⟩, .allOpen)]).SameOutcome
        (s.decideAll .standard [(⟨⟨8⟩, false⟩, .allOpen), (⟨⟨7⟩, true⟩, .allOpen)]) := by
  have hrun : run (step .standard) (init .standard 1 .empty) twoPrepared = some _ := rfl
  refine ⟨_, hrun, by decide +kernel, ?_⟩
  have hruns := runs_of_forall (P := fun e => e.2.working ∧ e.1.tidsPositive) hrun
    (by simp [twoPrepared, FileSystem.allOpen_working, Input.tidsPositive, Request.tidsPositive])
  refine (decisions_settle .standard (by decide) .empty hruns rfl).order _ _ ?_ ?_ ?_ ?_
  · simp [FileSystem.allOpen_working]
  · simp [FileSystem.allOpen_working]
  · exact List.Perm.swap _ _ _
  · simp

end Server
end TpcBank
