import TpcBank.Locks

/-! Which handlers make a transaction prepared and undecided, and the runs in which none of them
comes after the decision of the transaction. -/
namespace TpcBank
open Decimal Transition

/-- A list of synchronized entries leaves a transaction prepared: one entry prepares it, and no
later one decides it. -/
def LeavesPrepared (entries : List LogEntry) (tid : ℤ) : Prop :=
  ∃ l₁ e l₂, entries = l₁ ++ e :: l₂ ∧ e.tid = tid ∧ (Server.fromLogEntry e).status = .prepared ∧
    ∀ d ∈ l₂, ¬ (Server.fromLogEntry d).Decides tid

theorem not_leavesPrepared_nil {tid : ℤ} : ¬ LeavesPrepared [] tid := by
  rintro ⟨l₁, e, l₂, h, -⟩
  simp at h

theorem leavesPrepared_cons {e : LogEntry} {entries : List LogEntry} {tid : ℤ} :
    LeavesPrepared (e :: entries) tid ↔ LeavesPrepared entries tid ∨
      (e.tid = tid ∧ (Server.fromLogEntry e).status = .prepared) ∧
        ∀ d ∈ entries, ¬ (Server.fromLogEntry d).Decides tid := by
  constructor
  · rintro ⟨l₁, d, l₂, heq, hd⟩
    cases l₁ with
    | nil =>
      cases heq
      exact .inr ⟨⟨hd.1, hd.2.1⟩, hd.2.2⟩
    | cons e' l₁ =>
      cases heq
      exact .inl ⟨l₁, d, l₂, rfl, hd⟩
  · rintro (⟨l₁, d, l₂, rfl, hd⟩ | ⟨⟨htid, hstatus⟩, hlater⟩)
    · exact ⟨e :: l₁, d, l₂, rfl, hd⟩
    · exact ⟨[], e, entries, rfl, htid, hstatus, hlater⟩

namespace Server

variable {c : Constants} {fs : FileSystem} {s : Server} {input : Input} {tid : ℤ}

theorem has_syncEntries (i : ℕ) (logs : List LogEntry) :
    (s.syncEntries c fs i logs).wal.Has tid ↔ LeavesPrepared (writtenEntries fs i logs) tid ∨
      s.wal.Has tid ∧ ∀ d ∈ writtenEntries fs i logs, ¬ (fromLogEntry d).Decides tid := by
  induction logs generalizing i s with
  | nil =>
    simp only [syncEntries, writtenEntries, not_leavesPrepared_nil, false_or]
    exact ⟨fun h => ⟨h, by simp⟩, fun h => h.1⟩
  | cons e logs ih =>
    rw [syncEntries, ih, syncEntry_wal, writtenEntries]
    cases fs.opens i with
    | false => rfl
    | true =>
      rw [WAL.has_insertEntry, if_pos rfl, leavesPrepared_cons]
      simp only [List.forall_mem_cons]
      have htid : (fromLogEntry e).tid = e.tid := rfl
      rw [htid]
      tauto

/-- The handler reaches a branch that enters a transaction into the index: the accept phase of
its prepare call, an Accept of a transaction with one client in the cluster, or a Sync reply that
leaves it prepared. -/
def Prepares (c : Constants) (s : Server) (fs : FileSystem) : Input → ℤ → Prop
  | .request (.tpcPrepare request), tid => s.Proposes c request ∧ request.tid = tid
  | .request (.accept request), tid =>
      s.iAmDisconnected = false ∧ s.promised = true ∧ request.ballot.num = s.promisedNum.num ∧
        s.inCluster c request.r.txn = 1 ∧ request.r.tid = tid
  | .reply (.sync _) status (.sync response), tid =>
      status = .ok ∧ response.ack = true ∧
        LeavesPrepared (writtenEntries fs 0 response.logs) tid
  | _, _ => False

/-- A handler that makes a transaction undecided takes one of these branches. -/
theorem Acted.prepares {r : Handled} (h : Acted c fs s input r) (hhas : r.server.wal.Has tid)
    (habsent : ¬ s.wal.Has tid) : s.Prepares c fs input tid := by
  have heffect := h.effect
  rw [← data_wal r.server] at hhas
  generalize r.response = response, r.server.data = d at heffect hhas
  cases heffect with
  | kept => exact absurd hhas habsent
  | leaderPrepared request hproposes =>
    rw [data_wal, prepareTransaction_eq] at hhas
    exact ⟨hproposes, (WAL.has_prepareTransaction.mp hhas).resolve_right habsent⟩
  | followerPrepared request _ hconn hprom hnum hone =>
    rw [data_wal, prepareTransaction_eq] at hhas
    exact ⟨hconn, hprom, hnum, hone, (WAL.has_prepareTransaction.mp hhas).resolve_right habsent⟩
  | leaderCommitted request =>
    rw [data_wal, commitTransaction_eq] at hhas
    exact absurd (WAL.has_commitTransaction.mp hhas) habsent
  | followerCommitted request =>
    rw [data_wal, commitTransaction_eq] at hhas
    exact absurd (WAL.has_commitTransaction.mp hhas) habsent
  | decided request isCommit _ hconn =>
    rw [data_wal, has_processTpcDecision hconn] at hhas
    exact absurd hhas.1 habsent
  | synced request response hack =>
    rw [data_wal, has_syncEntries] at hhas
    exact ⟨rfl, hack, hhas.resolve_right fun h => habsent h.1⟩

/-- And every such branch does. -/
theorem Prepares.has (h : s.Prepares c fs input tid) :
    (s.react c fs input).server.wal.Has tid := by
  unfold Prepares at h
  split at h
  · rename_i request
    obtain ⟨hproposes, rfl⟩ := h
    show (s.runPaxos c fs request true).server.wal.Has _
    rw [runPaxos_of_proposes hproposes]
    simp only [startAccept, lockItems_eq, if_true, prepareTransaction_eq]
    exact WAL.has_prepareTransaction.mpr (.inl rfl)
  · rename_i request
    obtain ⟨hconn, hprom, hnum, hone, rfl⟩ := h
    show (s.processAcceptCall c fs request).server.wal.Has _
    unfold processAcceptCall
    rw [if_neg (by simp [hconn]), if_pos ⟨hprom, hnum⟩, acceptRequest_eq]
    dsimp only
    rw [if_pos hone, prepareTransaction_eq]
    exact WAL.has_prepareTransaction.mpr (.inl rfl)
  · rename_i request status response
    obtain ⟨rfl, hack, hleaves⟩ := h
    show (s.handleSyncReply c fs .ok response).wal.Has _
    simp only [handleSyncReply, hack, and_self, if_true]
    exact (has_syncEntries 0 response.logs).mpr (.inl hleaves)
  · exact h.elim

end Server

/-! ### The log of a decided transaction -/

/-- Every prepared transaction of a log is undecided or has its decision after it. -/
def Settled (log : List WALEntry) (pending : ℤ → Option WALEntry) : Prop :=
  ∀ l₁ e l₂, log = l₁ ++ e :: l₂ → e.status = .prepared → e.tid ≠ -1 →
    pending e.tid ≠ none ∨ ∃ d ∈ l₂, d.Decides e.tid

namespace Settled

variable {log : List WALEntry} {pending pending' : ℤ → Option WALEntry}

theorem keep (h : Settled log pending)
    (hkeep : ∀ tid, tid ≠ -1 → pending tid ≠ none → pending' tid ≠ none) :
    Settled log pending' := by
  intro l₁ e l₂ hlog hstatus htid
  rcases h l₁ e l₂ hlog hstatus htid with hp | hd
  · exact .inl (hkeep e.tid htid hp)
  · exact .inr hd

theorem snoc {d : WALEntry} (h : Settled log pending)
    (hkeep : ∀ tid, pending tid ≠ none → pending' tid ≠ none ∨ d.Decides tid)
    (hnew : d.status = .prepared → pending' d.tid ≠ none) : Settled (log ++ [d]) pending' := by
  intro l₁ e l₂ hlog hstatus htid
  rcases List.eq_nil_or_concat l₂ with rfl | ⟨l₃, d', rfl⟩
  · obtain ⟨-, heq⟩ := List.append_inj' hlog rfl
    obtain rfl := List.singleton_inj.mp heq
    exact .inl (hnew hstatus)
  · rw [List.concat_eq_append, ← List.cons_append, ← List.append_assoc] at hlog
    obtain ⟨hfront, heq⟩ := List.append_inj' hlog rfl
    obtain rfl := List.singleton_inj.mp heq
    rw [List.concat_eq_append]
    rcases h l₁ e l₃ hfront hstatus htid with hp | ⟨d', hmem, hd⟩
    · rcases hkeep e.tid hp with hp' | hd
      · exact .inl hp'
      · exact .inr ⟨d, by simp, hd⟩
    · exact .inr ⟨d', List.mem_append_left _ hmem, hd⟩

theorem syncPending {logs : List LogEntry} (h : Settled log pending) :
    Settled (log ++ logs.map Server.fromLogEntry) (Server.syncPending pending logs) := by
  induction logs generalizing log pending with
  | nil =>
    rw [List.map_nil, List.append_nil]
    exact h
  | cons e logs ih =>
    rw [Server.syncPending_cons, List.map_cons, List.append_cons]
    refine ih (h.snoc (fun tid hp => ?_) fun hstatus => ?_)
    · unfold WAL.insertPending WALEntry.Decides
      by_cases ht : tid = (Server.fromLogEntry e).tid
      · subst ht
        cases (Server.fromLogEntry e).status <;> simp [hp]
      · cases (Server.fromLogEntry e).status <;> simp [ht, hp]
    · unfold WAL.insertPending
      rw [hstatus]
      simp

end Settled

namespace Server

variable {c : Constants} {fs : FileSystem} {s : Server} {input : Input} {tid : ℤ}

theorem Acted.settled {r : Handled} (h : Acted c fs s input r) (hfs : fs.working)
    (hindex : s.wal.Indexed) (hsettled : Settled s.log s.wal.pending) :
    r.server.wal.Indexed ∧ Settled r.server.log r.server.wal.pending := by
  obtain ⟨hindexed, heffect⟩ := h.effect.logEffect hfs hindex
  rw [data_wal] at hindexed
  refine ⟨hindexed, ?_⟩
  rw [data_wal, data_log] at heffect
  generalize r.response = response, r.server.log = log, r.server.wal.pending = pending at heffect ⊢
  have hprepared : ∀ (request : TransferReq) (ballot : Ballot), Settled
      (s.log ++ [preparedEntry request ballot])
      (Function.update s.wal.pending request.tid (some (preparedEntry request ballot))) := by
    intro request ballot
    refine hsettled.snoc (fun tid hp => .inl ?_) fun _ => ?_
    · by_cases ht : tid = request.tid
      · simp [ht]
      · rwa [Function.update_of_ne ht]
    · simp [preparedEntry]
  have hcommitted : ∀ (request : TransferReq) (ballot : Ballot), Settled
      (s.log ++ [committedEntry request ballot]) s.wal.pending := by
    intro request ballot
    refine hsettled.snoc (fun tid hp => .inl hp) fun hstatus => ?_
    cases hstatus
  cases heffect with
  | kept => exact hsettled
  | leaderPrepared request => exact hprepared request _
  | followerPrepared request => exact hprepared request.r _
  | leaderCommitted request => exact hcommitted request _
  | followerCommitted request => exact hcommitted _ _
  | decided isCommit request e _ hconn hpending htid =>
    by_cases hone : e.tid = -1
    · rw [if_neg (by simp [hone])]
      refine hsettled.keep fun tid htid' hp => ?_
      rwa [Function.update_of_ne (by omega)]
    · rw [if_pos hone]
      refine hsettled.snoc (fun tid hp => ?_) fun hstatus => ?_
      · by_cases ht : tid = request.tid
        · refine .inr ⟨htid.trans ht.symm, ?_⟩
          cases isCommit
          · exact .inr rfl
          · exact .inl rfl
        · rw [Function.update_of_ne ht]
          exact .inl hp
      · cases isCommit <;> cases hstatus
  | synced request response => exact hsettled.syncPending

end Server

/-! ### Every run -/

namespace Network

variable {c : Constants} {n n' : Network} {e : Event} {x tid : ℤ}

/-- The decision that an event makes a connected server process. -/
def decisionAt (n : Network) (e : Event) : Option (ℤ × ℤ) :=
  match acting n e with
  | some (id, _, .request (.tpcCommit request)) | some (id, _, .request (.tpcAbort request)) =>
      if (n.servers id).iAmDisconnected then none else some (id, request.tid)
  | _ => none

/-- The decisions that connected servers have processed, each with its server. -/
def decisions (c : Constants) (disk : ℤ → Disk) (es : List Event) : List (ℤ × ℤ) :=
  observe (step c) decisionAt (init c disk) es

/-- An event makes a server enter a transaction into its index. -/
def PreparesAt (c : Constants) (n : Network) (e : Event) (x tid : ℤ) : Prop :=
  ∃ fs input, Acts n e x fs input ∧ (n.servers x).Prepares c fs input tid

theorem step_has_iff (h : step c n e = some n') (habsent : ¬ (n.servers x).wal.Has tid) :
    (n'.servers x).wal.Has tid ↔ PreparesAt c n e x tid := by
  constructor
  · intro hhas
    cases (step_stepped h).changeAt x with
    | same hserver =>
      rw [hserver] at hhas
      exact absurd hhas habsent
    | handled fs input r hacts hr hserver =>
      rw [hserver] at hhas
      exact ⟨fs, input, hacts, hr.prepares hhas habsent⟩
  · rintro ⟨fs, input, hacts, hprepares⟩
    rw [step_acts h hacts, Function.update_self]
    exact hprepares.has

/-- After a connected server has processed the decision of a transaction, no event makes the
transaction prepared and undecided there. Where the WAL file opens, it is then not in the index
in any later state, and what the log holds of it is decided. -/
structure NoLatePrepare (c : Constants) (disk : ℤ → Disk) (es : List Event) : Prop where
  never : ∀ es₁ e es₂ t u x tid, es = es₁ ++ e :: es₂ →
    run (step c) (init c disk) es₁ = some t → step c t e = some u →
      (x, tid) ∈ decisions c disk es₁ → ¬ (t.servers x).wal.Has tid → ¬ (u.servers x).wal.Has tid
  gone : (∀ e ∈ es, e.working) → ∀ es₁ es₂ t x tid, es = es₁ ++ es₂ →
    run (step c) (init c disk) es₁ = some t → (x, tid) ∈ decisions c disk es₁ →
      ¬ (t.servers x).wal.Has tid
  applied : (∀ e ∈ es, e.working) → ∀ es₁ es₂ t x tid, es = es₁ ++ es₂ →
    run (step c) (init c disk) es₁ = some t → (x, tid) ∈ decisions c disk es₁ → tid ≠ -1 →
      ∀ l₁ e l₂, (t.servers x).log = l₁ ++ e :: l₂ → e.tid = tid → e.status = .prepared →
        ∃ d ∈ l₂, d.Decides tid

/-- No step enters a transaction into the index of a server that has processed its decision. -/
def PreparesFirst (c : Constants) (disk : ℤ → Disk) (es : List Event) : Prop :=
  ∀ es₁ e es₂ t x tid, es = es₁ ++ e :: es₂ → run (step c) (init c disk) es₁ = some t →
    (x, tid) ∈ decisions c disk es₁ → ¬ (t.servers x).wal.Has tid → ¬ PreparesAt c t e x tid

theorem decisionAt_eq_some (h : decisionAt n e = some (x, tid)) :
    (n.servers x).iAmDisconnected = false ∧
      ∃ fs isCommit, Acts n e x fs (.request (.decision isCommit ⟨tid⟩)) := by
  unfold decisionAt at h
  split at h
  · rename_i id fs request hact
    split_ifs at h with hconn
    cases h
    exact ⟨by simpa using hconn, fs, true, acting_eq_some.mp hact⟩
  · rename_i id fs request hact
    split_ifs at h with hconn
    cases h
    exact ⟨by simpa using hconn, fs, false, acting_eq_some.mp hact⟩
  · cases h

/-- The decision takes the transaction out of the index. -/
theorem step_decided (h : step c n e = some n') (hworking : e.working)
    (hdecision : decisionAt n e = some (x, tid)) : ¬ (n'.servers x).wal.Has tid := by
  obtain ⟨hconn, fs, isCommit, hacts⟩ := decisionAt_eq_some hdecision
  have hserver : ((n.servers x).react c fs (.request (.decision isCommit ⟨tid⟩))).server =
      (n.servers x).processTpcDecision c fs ⟨tid⟩ isCommit := by
    cases isCommit <;> rfl
  rw [step_acts h hacts, Function.update_self, hserver, Server.has_processTpcDecision hconn]
  exact fun hhas => hhas.2 (hacts.working hworking 1) rfl

theorem Reaches.settled {disk : ℤ → Disk} {es : List Event}
    (h : Reaches c (fun _ e => e.working) disk es n) (x : ℤ) :
    (n.servers x).wal.Indexed ∧ Settled (n.servers x).log (n.servers x).wal.pending := by
  refine h.invariant (I := fun n => ∀ x, (n.servers x).wal.Indexed ∧
    Settled (n.servers x).log (n.servers x).wal.pending) ?_ ?_ x
  · intro x
    refine ⟨fun tid position hi => ?_, fun l₁ e l₂ hlog => ?_⟩
    · cases hi
    · cases l₁ <;> cases hlog
  · intro n e n' hn hworking hstep
    exact (step_stepped hstep).server_invariant
      (I := fun _ s => s.wal.Indexed ∧ Settled s.log s.wal.pending) hn
      fun id fs input r hacts hr => hr.settled (hacts.working hworking) (hn id).1 (hn id).2

/-- Where no step enters a decided transaction, none is ever found in the index again. -/
theorem gone_of_preparesFirst {disk : ℤ → Disk} {es₁ es₂ : List Event}
    (hfirst : PreparesFirst c disk (es₁ ++ es₂))
    (h : Reaches c (fun _ e => e.working) disk es₁ n) (hdecided : (x, tid) ∈ decisions c disk es₁) :
    ¬ (n.servers x).wal.Has tid := by
  induction h generalizing es₂ with
  | refl => cases hdecided
  | @snoc es t u e hrun hworking hstep ih =>
    unfold decisions at hdecided
    rw [hrun.observe_snoc e, List.mem_append] at hdecided
    rw [List.append_assoc] at hfirst
    rcases hdecided with hold | hnew
    · have habsent := ih hfirst hold
      rw [step_has_iff hstep habsent]
      exact hfirst es e es₂ t x tid rfl hrun.run_eq hold habsent
    · exact step_decided hstep hworking (Option.mem_toList.mp hnew)

/-- No transaction is prepared on a server after the server has processed its decision, in
exactly the runs in which no step takes a preparing branch for a decided transaction. -/
theorem noLatePrepare_iff {disk : ℤ → Disk} {es : List Event}
    (h : Reaches c (fun _ _ => True) disk es n) :
    NoLatePrepare c disk es ↔ PreparesFirst c disk es := by
  constructor
  · rintro hlate es₁ e es₂ t x tid rfl hrun hdecided habsent hprepares
    have hall := h.run_eq
    rw [run_append, hrun, Option.bind_some] at hall
    obtain ⟨u, hu, -⟩ := Option.bind_eq_some_iff.mp hall
    exact hlate.never es₁ e es₂ t u x tid rfl hrun hu hdecided habsent
      ((step_has_iff hu habsent).mpr hprepares)
  · intro hfirst
    have hgone : (∀ e ∈ es, e.working) → ∀ es₁ es₂ t x tid, es = es₁ ++ es₂ →
        run (step c) (init c disk) es₁ = some t → (x, tid) ∈ decisions c disk es₁ →
          Reaches c (fun _ e => e.working) disk es₁ t ∧ ¬ (t.servers x).wal.Has tid := by
      rintro hworking es₁ es₂ t x tid rfl hrun hdecided
      have hreaches : Reaches c (fun _ e => e.working) disk es₁ t :=
        runs_of_forall hrun fun e he => hworking e (List.mem_append_left _ he)
      exact ⟨hreaches, gone_of_preparesFirst hfirst hreaches hdecided⟩
    refine ⟨?_, fun hworking es₁ es₂ t x tid hes hrun hdecided =>
      (hgone hworking es₁ es₂ t x tid hes hrun hdecided).2, ?_⟩
    · intro es₁ e es₂ t u x tid hes hrun hstep hdecided habsent hhas
      exact hfirst es₁ e es₂ t x tid hes hrun hdecided habsent
        ((step_has_iff hstep habsent).mp hhas)
    · rintro hworking es₁ es₂ t x tid hes hrun hdecided hne l₁ e l₂ hlog rfl hstatus
      obtain ⟨hreaches, habsent⟩ := hgone hworking es₁ es₂ t x e.tid hes hrun hdecided
      obtain ⟨hindexed, hsettled⟩ := hreaches.settled x
      refine (hsettled l₁ e l₂ hlog hstatus hne).resolve_left fun hp => ?_
      rw [ne_eq, hindexed.pending_eq_none] at hp
      exact habsent hp

/-- Server 2 prepares a transaction and then commits it. -/
def committedLastRun : List Event := preparedRun ++ [.call 2 (.tpcCommit ⟨1⟩), .arrives 7]

theorem noLatePrepare_committedLastRun :
    NoLatePrepare .standard (fun _ => .empty) committedLastRun ∧
      ∃ n, run (step .standard) (init .standard fun _ => .empty) committedLastRun = some n ∧
        decisions .standard (fun _ => .empty) committedLastRun = [(2, 1)] ∧
        ¬ (n.servers 2).wal.Has 1 := by
  obtain ⟨n, hn, hcheck⟩ := (Option.any_eq_true _ _).mp
    (show (run (step .standard) (init .standard fun _ => .empty) committedLastRun).any (fun n =>
      decide (decisions .standard (fun _ => .empty) committedLastRun = [(2, 1)] ∧
        ¬ (n.servers 2).wal.Has 1)) = true by decide +kernel)
  refine ⟨(noLatePrepare_iff (runs_of_run hn)).mpr ?_, n, hn, of_decide_eq_true hcheck⟩
  -- the decision is the last event of the run
  have hnone : decisions .standard (fun _ => .empty) (preparedRun ++ [.call 2 (.tpcCommit ⟨1⟩)]) =
      [] := by decide +kernel
  intro es₁ e es₂ t x tid hes hrun hdecided
  have hpre : es₁ <+: preparedRun ++ [.call 2 (.tpcCommit ⟨1⟩)] := by
    have hlast : es₁ ++ e :: es₂ = (preparedRun ++ [.call 2 (.tpcCommit ⟨1⟩)]) ++ [.arrives 7] := by
      rw [← hes, committedLastRun, List.append_assoc]
      rfl
    rcases List.eq_nil_or_concat es₂ with rfl | ⟨es₃, d, rfl⟩
    · obtain ⟨rfl, -⟩ := List.append_inj' hlast rfl
      exact List.prefix_rfl
    · rw [List.concat_eq_append, ← List.cons_append, ← List.append_assoc] at hlast
      obtain ⟨hfront, -⟩ := List.append_inj' hlast rfl
      exact ⟨_, hfront⟩
  obtain ⟨es₃, heq⟩ := hpre
  have hmem : (x, tid) ∈ decisions .standard (fun _ => .empty) (es₁ ++ es₃) :=
    observe_append_left hdecided
  rw [heq, hnone] at hmem
  cases hmem

/-- Server 3 accepts, the transaction is committed, and only then the Accept reaches server 2. -/
def lateAcceptRun : List Event :=
  [.call 1 (.tpcPrepare ⟨⟨1, 1001, 3⟩, 1⟩), .arrives 0, .arrives 1, .arrives 2, .returns 2,
    .arrives 0, .arrives 4, .returns 4, .arrives 0, .call 2 (.tpcCommit ⟨1⟩), .arrives 7]

theorem not_noLatePrepare_lateAcceptRun :
    ¬ NoLatePrepare .standard (fun _ => .empty) (lateAcceptRun ++ [.arrives 3]) := by
  intro hlate
  obtain ⟨t, ht, hcheck⟩ := (Option.any_eq_true _ _).mp
    (show (run (step .standard) (init .standard fun _ => .empty) lateAcceptRun).any (fun t =>
      decide ((2, 1) ∈ decisions .standard (fun _ => .empty) lateAcceptRun ∧
        ¬ (t.servers 2).wal.Has 1) && (step .standard t (.arrives 3)).any fun u =>
          decide ((u.servers 2).wal.Has 1)) = true by decide +kernel)
  obtain ⟨hbefore, hafter⟩ := Bool.and_eq_true_iff.mp hcheck
  obtain ⟨hdecided, habsent⟩ := of_decide_eq_true hbefore
  obtain ⟨u, hu, hhas⟩ := (Option.any_eq_true _ _).mp hafter
  exact hlate.never lateAcceptRun _ [] t u 2 1 rfl ht hu hdecided habsent (of_decide_eq_true hhas)

end Network
end TpcBank
