import TpcBank.StateMatch

/-! Synchronization: when a server that is behind applies the reply of a peer, it ends with the
log, the `last_inserted` and the balances of the peer just when `last_inserted` was the last
index of the log at both servers. -/
namespace TpcBank
open Decimal Transition

namespace Server

variable {c : Constants} {fs : FileSystem} {s : Server} {input : Input} {r : Handled}

/-- `last_inserted` is -1 or the index of an entry of the log. -/
def LastInLog (s : Server) : Prop := -1 ≤ s.lastInserted ∧ s.lastInserted < s.log.length

theorem Acted.lastInLog (h : Acted c fs s input r) (hlast : s.LastInLog) : r.server.LastInLog := by
  obtain ⟨hlow, hhigh⟩ := hlast
  have hgrows := h.log_grows.length_le
  unfold LastInLog
  cases h with
  | accepting isCrossShard request d hown hprep hmaj hcond hd =>
    subst hd
    cases isCrossShard with
    | true =>
      simp only [if_true, prepareTransaction_eq, data_log, List.length_append, List.length_singleton]
      omega
    | false =>
      dsimp only at hgrows ⊢
      exact ⟨hlow, by simpa using hhigh⟩
  | committed request d hown hprep hacc hmaj hd =>
    subst hd
    simp only [commitTransaction_eq, data_log, List.length_append, List.length_singleton]
    omega
  | accepted request d hconn hprom hnum hd =>
    subst hd
    dsimp only at hgrows ⊢
    split_ifs with hone
    · simp only [prepareTransaction_eq, data_log, List.length_append, List.length_singleton]
      omega
    · exact ⟨hlow, by simpa using hhigh⟩
  | released request d hconn hprom hacc hd =>
    subst hd
    dsimp only at hgrows ⊢
    split_ifs with htwo
    · simp only [commitTransaction_eq, data_log, List.length_append, List.length_singleton]
      omega
    · simp only [data_log]
      omega
  | synced request response d hack hd =>
    subst hd
    simp only [data_log, syncEntries_log, List.length_append, List.length_map]
    omega
  | decided isCommit request d locks hconn hd =>
    dsimp only at hgrows ⊢
    omega
  | _ => exact ⟨hlow, hhigh⟩

/-- The entries of an answer are the entries of the log from the requested index on. -/
theorem processSyncCall_logs {request : SyncReq} (hack : (s.processSyncCall request).ack = true)
    (hlow : -1 ≤ request.lastInserted) :
    request.lastInserted < s.lastInserted ∧ (s.processSyncCall request).logs.map fromLogEntry =
      s.log.drop (request.lastInserted + 1).toNat := by
  unfold processSyncCall at hack ⊢
  split_ifs at hack ⊢ with hlast hneg
  · omega
  · refine ⟨hlast, ?_⟩
    simp [Function.comp_def, fromLogEntry_getLogEntryFromLocalLog]

/-- What an acknowledged reply does to the log and to `last_inserted`. -/
theorem handleSyncReply_ack {response : SyncRes} (hack : response.ack = true) :
    (s.handleSyncReply c fs .ok response).log = s.log ++ response.logs.map fromLogEntry ∧
      (s.handleSyncReply c fs .ok response).lastInserted =
        s.lastInserted + response.logs.length ∧
      (s.handleSyncReply c fs .ok response).data = (s.syncEntries c fs 0 response.logs).data := by
  simp only [handleSyncReply, hack, and_self, if_true]
  refine ⟨syncEntries_log 0 response.logs, ?_, rfl⟩
  rw [syncEntries_eq]

end Server

namespace Network

variable {c : Constants} {n : Network} {disk : ℤ → Disk} {es : List Event}

theorem reaches_lastInLog {P : Network → Event → Prop} (h : Reaches c P disk es n) (x : ℤ) :
    (n.servers x).LastInLog := by
  refine h.invariant (I := fun n => ∀ x, (n.servers x).LastInLog) ?_ ?_ x
  · intro x
    refine ⟨le_rfl, ?_⟩
    show (-1 : ℤ) < ((0 : ℕ) : ℤ)
    decide
  · intro n e n' hn _ hstep
    exact (step_stepped hstep).server_invariant (I := fun _ s => s.LastInLog) hn
      fun id _ _ _ _ hr => hr.lastInLog (hn id)

end Network

/-- The requester ends with the log, `last_inserted` and balances of the responder after it has
applied the answer to its request. -/
def Converges (c : Constants) (fs : FileSystem) (requester responder : Server) : Prop :=
  let s := requester.handleSyncReply c fs .ok
    (responder.processSyncCall ⟨requester.lastInserted⟩)
  s.log = responder.log ∧ s.lastInserted = responder.lastInserted ∧
    ∀ x, c.IsClientOf responder.clusterId x → s.balances x = responder.balances x

/-- The last entry of the log moved `last_inserted`. -/
def Server.EndsInserted (s : Server) : Prop := s.lastInserted = s.log.length - 1

namespace Network

variable {c : Constants} {n : Network} {disk : ℤ → Disk} {es : List Event} {fs : FileSystem}

/-- The exact condition for a server that is behind to end with the state of the responder, where
file operations succeed, tids are positive and the client sends each request to the servers that it
is for. -/
theorem converges_iff (h : Reaches c (fun _ e => Regular c e) disk es n) {q r : ℤ} (hq : 1 ≤ q)
    (hr : 1 ≤ r) (hcluster : c.getClusterIdFromServerId q = c.getClusterIdFromServerId r)
    (hfs : fs.working) (hbegins : (n.servers q).log <+: (n.servers r).log)
    (hack : ((n.servers r).processSyncCall ⟨(n.servers q).lastInserted⟩).ack = true) :
    Converges c fs (n.servers q) (n.servers r) ↔
      (n.servers q).EndsInserted ∧ (n.servers r).EndsInserted := by
  obtain ⟨hlow, hhigh⟩ := reaches_lastInLog h q
  have hlast := (reaches_lastInLog h r).2
  obtain ⟨hbehind, hlogs⟩ := Server.processSyncCall_logs hack hlow
  dsimp only at hbehind hlogs
  have hcount := congrArg List.length hlogs
  rw [List.length_map, List.length_drop] at hcount
  have hsynced : ((n.servers q).handleSyncReply c fs .ok
      ((n.servers r).processSyncCall ⟨(n.servers q).lastInserted⟩)).log = _ ∧ _ ∧ _ :=
    Server.handleSyncReply_ack hack
  obtain ⟨hlog, hinserted, hdata⟩ := hsynced
  rw [hlogs] at hlog
  unfold Converges Server.EndsInserted
  dsimp only
  rw [hlog, hinserted]
  constructor
  · rintro ⟨hsame, hsame', -⟩
    have hlength := congrArg List.length hsame
    rw [List.length_append, List.length_drop] at hlength
    constructor <;> omega
  · rintro ⟨hends, hends'⟩
    have hall : (n.servers q).log ++ (n.servers r).log.drop
        ((n.servers q).lastInserted + 1).toNat = (n.servers r).log := by
      have hlength : ((n.servers q).lastInserted + 1).toNat = (n.servers q).log.length := by omega
      rw [hlength]
      nth_rewrite 1 [List.prefix_iff_eq_take.mp hbegins]
      exact List.take_append_drop _ _
    refine ⟨hall, by omega, fun x hx => ?_⟩
    -- both servers hold the replay of the same log
    have hrid := (reaches_routed h).clusterId r
    have hqid := (reaches_routed h).clusterId q
    have hresponder := reaches_replayed h hr
    have hrequester := reaches_replayed h hq
    rw [← hrid] at hresponder
    rw [← hqid] at hrequester
    have hpos : ∀ e ∈ ((n.servers r).processSyncCall ⟨(n.servers q).lastInserted⟩).logs,
        0 < e.tid := by
      intro e he
      exact reaches_positive h hr (Server.mem_processSyncCall he)
    have hafter := Server.syncEntries_replayed hfs hpos 0 hrequester
    rw [← hdata, hqid, hcluster, ← hrid] at hafter
    have hb := hafter.balances x hx
    have hb' := hresponder.balances x hx
    rw [Server.data_balances, Server.data_log, hlog, hall] at hb
    rw [Server.data_balances, Server.data_log] at hb'
    rw [hb, hb']

/-- Servers 1 and 3 commit a transfer that server 2 has not heard of. -/
def behindRun : List Event :=
  [.call 1 (.transfer ⟨⟨1, 2, 3⟩, 1⟩), .arrives 0, .arrives 2, .returns 2, .arrives 0, .arrives 4,
    .returns 4, .arrives 0, .arrives 6]

theorem converges_behindRun :
    ∃ n, run (step .single) (init .single fun _ => .empty) behindRun = some n ∧
      Converges .single .allOpen (n.servers 2) (n.servers 1) := by
  obtain ⟨n, hn, hcheck⟩ := (Option.any_eq_true _ _).mp
    (show (run (step .single) (init .single fun _ => .empty) behindRun).any (fun n =>
      decide ((n.servers 2).log = [] ∧ (n.servers 2).lastInserted = -1 ∧
        (n.servers 1).lastInserted = ((n.servers 1).log.length : ℤ) - 1) &&
      ((n.servers 1).processSyncCall ⟨(n.servers 2).lastInserted⟩).ack) = true by
      decide +kernel)
  obtain ⟨hstate, hack⟩ := Bool.and_eq_true_iff.mp hcheck
  obtain ⟨hempty, hinserted, hends⟩ := of_decide_eq_true hstate
  have hregular : Runs (step .single) (fun _ e => Regular .single e)
      (init .single fun _ => .empty) behindRun n := by
    refine runs_of_forall hn ?_
    have hsame : Constants.single.getClusterIdFromClientId 1 =
        Constants.single.getClusterIdFromClientId 2 := by decide
    simp [behindRun, Regular, Event.arrives, Event.returns, Event.working, Event.tidsPositive,
      Request.tidsPositive, Classified, FileSystem.allOpen_working, hsame]
  refine ⟨n, hn, (converges_iff hregular (by decide) (by decide) (by decide)
    FileSystem.allOpen_working ?_ hack).mpr ⟨?_, hends⟩⟩
  · rw [hempty]
    exact List.nil_prefix
  · rw [Server.EndsInserted, hinserted, hempty]
    decide

/-- Server 2 has prepared and committed a cross-shard transaction, which the index it asks from
does not tell. -/
def decidedRun : List Event :=
  [.call 1 (.tpcPrepare ⟨⟨1, 1001, 3⟩, 7⟩), .arrives 0, .arrives 1, .arrives 2, .returns 1,
    .arrives 0, .arrives 3, .arrives 4, .returns 3, .arrives 0, .call 1 (.tpcCommit ⟨7⟩),
    .call 2 (.tpcCommit ⟨7⟩), .call 3 (.tpcCommit ⟨7⟩), .arrives 7, .arrives 8, .arrives 9,
    .call 1 (.transfer ⟨⟨2, 3, 1⟩, 8⟩), .arrives 10, .arrives 12, .returns 12, .arrives 10,
    .arrives 14, .returns 14, .arrives 10]

theorem not_converges_decidedRun :
    ∃ n, run (step .standard) (init .standard fun _ => .empty) decidedRun = some n ∧
      (n.servers 2).log <+: (n.servers 1).log ∧
      ((n.servers 1).processSyncCall ⟨(n.servers 2).lastInserted⟩).ack = true ∧
      ¬ Converges .standard .allOpen (n.servers 2) (n.servers 1) := by
  obtain ⟨n, hn, hcheck⟩ := (Option.any_eq_true _ _).mp
    (show (run (step .standard) (init .standard fun _ => .empty) decidedRun).any (fun n =>
      decide ((n.servers 2).log = (n.servers 1).log.take 2 ∧
        ((n.servers 1).processSyncCall ⟨(n.servers 2).lastInserted⟩).ack = true ∧
        ((n.servers 2).handleSyncReply .standard .allOpen .ok
          ((n.servers 1).processSyncCall ⟨(n.servers 2).lastInserted⟩)).log ≠
          (n.servers 1).log)) = true by decide +kernel)
  obtain ⟨hbegins, hack, hne⟩ := of_decide_eq_true hcheck
  refine ⟨n, hn, ?_, hack, fun hconverges => hne hconverges.1⟩
  rw [hbegins]
  exact List.take_prefix _ _

end Network
end TpcBank
