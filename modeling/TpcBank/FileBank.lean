import TpcBank.Driver
import TpcBank.Serializability

/-! The bank that the program runs for a file: where the sets of the file name one leader in
every cluster, what is committed is a serial run of rows of the sets that were asked for. -/
namespace TpcBank
open Decimal Transition

/-- The transaction of a task, with the leaders of its set. -/
def Task.named : Task → Option (Transaction × List Text)
  | .processTransaction t leaders => some (t, leaders)
  | _ => none

/-- The request of a transaction that an action issues. -/
def Action.issued : Action → Option TransferReq
  | .processTransaction t _ tid => some ⟨t, tid⟩
  | _ => none

theorem Action.issued_txn (a : Action) :
    a.issued.map TransferReq.txn = (a.task.bind Task.named).map Prod.fst := by
  cases a <;> rfl

/-- The transactions of a set are between clients and of no negative amounts, and the set names
the leaders of their clusters. -/
def WrittenSet.Fits {c : Constants} (L : Leaders c) (set : WrittenSet) : Prop :=
  ∀ t ∈ set.transactions, IsClient t.sender ∧ IsClient t.receiver ∧ 0 ≤ t.amount ∧
    System.leaderId c set.leaders.names (c.getClusterIdFromClientId t.sender) =
      some (L.leader (c.getClusterIdFromClientId t.sender)) ∧
    System.leaderId c set.leaders.names (c.getClusterIdFromClientId t.receiver) =
      some (L.leader (c.getClusterIdFromClientId t.receiver))

/-- The rows of a set, each with the leaders of the set. -/
def WrittenSet.named (set : WrittenSet) : List (Transaction × List Text) :=
  set.transactions.map fun t => (t, set.leaders.names)

namespace Driver

variable {c : Constants} {L : Leaders c} {sets : List WrittenSet} {d d' : Driver} {e : DriverEvent}
  {es : List DriverEvent} {disk : ℤ → Disk} {crlf final : Bool}

/-- The file operations succeed, the clock gives every transaction a positive time of its own,
and no leader takes entries from a peer. -/
structure Undisturbed (L : Leaders c) (d : Driver) (e : DriverEvent) : Prop where
  working : e.working
  timed : ∀ a ∈ d.action e, (∀ r ∈ a.issued, 0 < r.tid) ∧ System.UniqueTid d.system a
  unsynced : ∀ a ∈ d.action e, System.Unsynced L d.system a

/-! ### The rows behind the tasks -/

theorem tasks_named (c : Constants) (set : WrittenSet) :
    (set.tasks c).filterMap Task.named = set.named := by
  rw [WrittenSet.tasks, List.filterMap_cons_none rfl, List.filterMap_map]
  exact congrFun List.filterMap_eq_map _

/-- The plan has the rows of the sets that were asked for, each once and in their order. -/
theorem plan_named (c : Constants) (sets : List WrittenSet) (commands : List AppCommand) :
    ((plan c sets commands).filterMap Task.named).Sublist
      ((sets.take (setsAsked commands)).flatMap WrittenSet.named) := by
  induction commands generalizing sets with
  | nil => exact List.nil_sublist _
  | cons cmd commands ih =>
    obtain ⟨name, clientId⟩ := cmd
    cases name with
    | processNextSet =>
      have hasked : setsAsked (⟨.processNextSet, clientId⟩ :: commands) = setsAsked commands + 1 := by
        simp [setsAsked]
      rw [hasked]
      cases sets with
      | nil => simpa [plan] using ih []
      | cons set sets =>
        simp only [plan, List.head?_cons, Option.elim_some, List.tail_cons, List.filterMap_append,
          tasks_named, List.take_succ_cons, List.flatMap_cons]
        exact (ih sets).append_left _
    | exit => exact List.nil_sublist _
    | printPerformance => simpa [plan, setsAsked] using ih sets
    | _ =>
      rw [plan, List.filterMap_cons_none rfl]
      simpa [setsAsked] using ih sets

theorem Follows.row {commands : List AppCommand} {past : List Task}
    (h : Follows c sets commands past d) {t : Transaction} {leaders : List Text}
    (ht : .processTransaction t leaders ∈ d.todo) :
    ∃ set ∈ sets, t ∈ set.transactions ∧ leaders = set.leaders.names := by
  have hplan : .processTransaction t leaders ∈ plan c sets commands := by
    rw [← h.tasks]
    exact List.mem_append_right _ ht
  have hnamed := (plan_named c sets commands).subset (List.mem_filterMap.mpr ⟨_, hplan, rfl⟩)
  obtain ⟨set, hset, hrow⟩ := List.mem_flatMap.mp hnamed
  obtain ⟨t', ht', heq⟩ := List.mem_map.mp hrow
  cases heq
  exact ⟨set, List.mem_of_mem_take hset, ht', rfl⟩

/-- What is issued is of the bank, and goes to the leaders. -/
theorem Follows.fits {commands : List AppCommand} {past : List Task}
    (h : Follows c sets commands past d) (hfits : ∀ set ∈ sets, set.Fits L) {a : Action}
    (ha : a ∈ d.action e) (htid : ∀ r ∈ a.issued, 0 < r.tid) : a.proper ∧ a.Names L ∧ a.Nonneg := by
  cases e with
  | prompt => cases ha
  | deliver =>
    cases ha
    exact ⟨trivial, trivial, trivial⟩
  | complete =>
    cases ha
    exact ⟨trivial, trivial, trivial⟩
  | issue tid =>
    obtain ⟨task, htask, rfl⟩ := Option.map_eq_some_iff.mp ha
    cases task with
    | processTransaction t leaders =>
      obtain ⟨set, hset, ht, rfl⟩ := h.row (List.mem_of_head? htask)
      obtain ⟨hsender, hreceiver, hamount, hfirst, hsecond⟩ := hfits set hset t ht
      exact ⟨⟨htid _ rfl, hsender, hreceiver⟩, ⟨hfirst, hsecond⟩, hamount⟩
    | _ => exact ⟨trivial, trivial, trivial⟩

/-! ### The run of the system -/

/-- A program on such a file runs a bank with one leader in every cluster. -/
theorem reaches_orderly
    (h : Reaches c (Undisturbed L) (WrittenSet.write crlf final sets) disk es d)
    (hsets : sets.length < 2 ^ 31) (hcounts : ∀ set ∈ sets, set.transactions.length < 2 ^ 31)
    (hfits : ∀ set ∈ sets, set.Fits L) :
    System.Reaches c (fun σ a => System.Orderly L σ a) disk
      (observe (step c) action (init c (WrittenSet.write crlf final sets) disk) es) d.system := by
  let R := fun (d : Driver) σ => d.system = σ ∧ ∃ commands past, Follows c sets commands past d
  have hstep : ∀ d e d' σ, R d σ → Undisturbed L d e → step c d e = some d' → ∃ σ',
      Runs (System.step c) (fun σ a => System.Orderly L σ a) σ (d.action e).toList σ' ∧ R d' σ' := by
    rintro d e d' _ ⟨rfl, commands, past, hfollows⟩ hcalm hs
    refine ⟨d'.system, (step_stepped hs).system fun a ha => ?_, rfl, _, _,
      hfollows.step (step_stepped hs) hsets hcounts⟩
    obtain ⟨htid, hunique⟩ := hcalm.timed a ha
    obtain ⟨hproper, hnames, hnonneg⟩ := hfollows.fits hfits ha htid
    exact ⟨working_action hcalm.working ha, hproper, hnames, hnonneg, hunique,
      hcalm.unsynced a ha⟩
  obtain ⟨σ, hrun, rfl, -⟩ := h.refines (R := R)
    ⟨rfl, [], [], follows_init c crlf final sets disk⟩ hstep
  exact hrun

end Driver

namespace System

variable {c : Constants} {σ : System} {disk : ℤ → Disk} {as : List Action}
  {P : System → Action → Prop}

/-- A poll of the client goes back to the action that issued its transaction. -/
theorem issued_of_sent (h : Reaches c P disk as σ) {dst : ℤ} {isCrossShard : Bool} {r : TransferReq}
    (hs : σ.network.Sent none dst (.poll isCrossShard r)) : r ∈ as.filterMap Action.issued := by
  induction h with
  | refl =>
    obtain ⟨call, hmem, -⟩ := hs
    cases hmem
  | snoc hrun hP hstep ih =>
    rw [List.filterMap_append, List.mem_append]
    rcases (step_stepped hstep).sent_poll hs with hold | ⟨leaders, rfl⟩
    · exact .inl (ih hold)
    · exact .inr (List.mem_singleton_self _)

end System

namespace Driver

variable {c : Constants} {L : Leaders c} {sets : List WrittenSet} {d d' : Driver} {e : DriverEvent}
  {es : List DriverEvent} {disk : ℤ → Disk} {crlf final : Bool}

/-- Where every set of the file names the leaders of its clusters, the committed transactions
are a run of the bank that executes one after the other, nobody is overdrawn, and they are rows
of the sets that were asked for, no row more than once. -/
theorem reaches_bank
    (h : Reaches c (Undisturbed L) (WrittenSet.write crlf final sets) disk es d)
    (hsets : sets.length < 2 ^ 31) (hcounts : ∀ set ∈ sets, set.transactions.length < 2 ^ 31)
    (hfits : ∀ set ∈ sets, set.Fits L) :
    ∃ past bank, System.Serialized L d.system past bank ∧ (∀ x, 0 ≤ bank x) ∧
      (past.map TransferReq.txn).Subperm ((sets.take
        (setsAsked (es.filterMap DriverEvent.command))).flatMap WrittenSet.transactions) := by
  have horderly := reaches_orderly h hsets hcounts hfits
  have hfollows := reaches_follows h hsets hcounts
  generalize observe (step c) action (init c (WrittenSet.write crlf final sets) disk) es = as
    at horderly hfollows
  obtain ⟨bank, hser⟩ := System.exists_serialized L horderly
  refine ⟨_, bank, hser, (System.reaches_sole L horderly).bank_nonneg hser, ?_⟩
  -- what is committed was issued, and under a tid of its own
  have hissued : (System.history c disk as).Subperm (as.filterMap Action.issued) := by
    refine List.Nodup.subperm (.of_map _ hser.distinct) fun r hr => ?_
    obtain ⟨dst, x, hs⟩ := ((hser.members r).mp hr).sent
    exact System.issued_of_sent horderly hs
  have hrows : ((as.filterMap Action.issued).map TransferReq.txn).Sublist ((sets.take
      (setsAsked (es.filterMap DriverEvent.command))).flatMap WrittenSet.transactions) := by
    have htasks : (as.filterMap Action.issued).map TransferReq.txn =
        ((as.filterMap Action.task).filterMap Task.named).map Prod.fst := by
      rw [List.map_filterMap, List.filterMap_filterMap, List.map_filterMap]
      exact congrArg (fun f => as.filterMap f) (funext Action.issued_txn)
    have hissued : ((as.filterMap Action.task).filterMap Task.named).Sublist
        ((plan c sets (es.filterMap DriverEvent.command)).filterMap Task.named) := by
      rw [← hfollows.tasks]
      exact (List.sublist_append_left _ _).filterMap _
    have hall := (hissued.trans (plan_named c sets (es.filterMap DriverEvent.command))).map Prod.fst
    rw [htasks]
    simpa [WrittenSet.named, List.map_flatMap, Function.comp_def] using hall
  obtain ⟨requests, hperm, hsub⟩ := hissued
  exact ⟨_, hperm.map _, (hsub.map _).trans hrows⟩

theorem reaches_bank_oneSetRun : ∃ d past bank,
    run (step .standard) (init .standard (WrittenSet.write true false [twoTransfers])
      fun _ => .empty) oneSetRun = some d ∧
    System.Serialized System.firstServers d.system past bank ∧ (∀ x, 0 ≤ bank x) ∧
    (past.map TransferReq.txn).Subperm twoTransfers.transactions ∧
    (d.system.network.servers 1).balances 2 = 13 := by
  obtain ⟨d, hd, hbalance⟩ := (Option.any_eq_true _ _).mp
    (show (runIf (step .standard) (fun d e => ∀ a ∈ d.action e,
        ((∀ r ∈ a.issued, 0 < r.tid) ∧ System.UniqueTid d.system a) ∧
          System.Unsynced System.firstServers d.system a)
      (init .standard (WrittenSet.write true false [twoTransfers]) fun _ => .empty) oneSetRun).any
      (fun d => decide ((d.system.network.servers 1).balances 2 = 13)) = true by decide +kernel)
  have hcalm := runs_of_runIf hd
  have hworking : Runs (step .standard) (fun _ e => e.working)
      (init .standard (WrittenSet.write true false [twoTransfers]) fun _ => .empty) oneSetRun d := by
    refine runs_of_forall hcalm.run_eq ?_
    simp only [oneSetRun, List.forall_mem_append, List.forall_mem_flatMap, List.forall_mem_cons]
    simp [DriverEvent.working, FileSystem.allOpen_working]
  have hfits : ∀ set ∈ [twoTransfers], set.Fits System.firstServers := by
    intro set hset
    obtain rfl := List.mem_singleton.mp hset
    intro t ht
    have ht : t = ⟨1, 2, 3⟩ ∨ t = ⟨2, 1001, 4⟩ := by simpa [twoTransfers] using ht
    rcases ht with rfl | rfl <;> exact ⟨⟨by decide, by decide⟩, ⟨by decide, by decide⟩, by decide,
      by decide +kernel, by decide +kernel⟩
  have hasked : ([twoTransfers].take (setsAsked (oneSetRun.filterMap DriverEvent.command))).flatMap
      WrittenSet.transactions = twoTransfers.transactions := by decide +kernel
  obtain ⟨past, bank, hser, hnonneg, hrows⟩ := reaches_bank
    ((hworking.and hcalm).mono fun _ _ h => ⟨h.1, fun a ha => (h.2 a ha).1, fun a ha => (h.2 a ha).2⟩)
    (by decide) (by decide) hfits
  exact ⟨d, past, bank, hcalm.run_eq, hser, hnonneg, hasked ▸ hrows, of_decide_eq_true hbalance⟩

end Driver
end TpcBank
