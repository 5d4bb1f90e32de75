import TpcBank.Books
import TpcBank.LogIndex

/-! The two parts of a log: the transfers inside the cluster by their positions, which
`last_inserted` counts, and the committed cross-shard transactions by their tids, which come with
the decisions of the client. Together they make up the balances. -/
namespace TpcBank
open Ledger

/-- The transaction of an INTRA entry. -/
def WALEntry.intraTxn (e : WALEntry) : Option Transaction :=
  if e.type = .intra then some e.txn else none

def Transaction.posting (txn : Transaction) : Posting ℤ ℤ :=
  ⟨txn.sender, txn.receiver, txn.amount⟩

/-- What a log holds at each position: a transfer inside the cluster, or something else. -/
def slots (log : List WALEntry) : List (Option Transaction) :=
  log.map WALEntry.intraTxn

/-- The tids of the committed cross-shard transactions. -/
def crossTids (log : List WALEntry) : List ℤ :=
  (log.filter fun e => e.type = .cross ∧ e.status = .committed).map WALEntry.tid

@[simp] theorem slots_append (log log' : List WALEntry) :
    slots (log ++ log') = slots log ++ slots log' :=
  List.map_append

@[simp] theorem length_slots (log : List WALEntry) : (slots log).length = log.length :=
  List.length_map _

@[simp] theorem crossTids_append (log log' : List WALEntry) :
    crossTids (log ++ log') = crossTids log ++ crossTids log' := by
  simp [crossTids]

theorem mem_crossTids {log : List WALEntry} {tid : ℤ} : tid ∈ crossTids log ↔
    ∃ e ∈ log, e.type = .cross ∧ e.status = .committed ∧ e.tid = tid := by
  simp [crossTids, and_assoc]

/-- The balances are those of the transfers and of the cross-shard transactions. -/
theorem net_committed_parts {log : List WALEntry} {book : ℤ → Transaction}
    (hintra : ∀ e ∈ log, e.type = .intra → e.status = .committed)
    (hcross : ∀ e ∈ log, e.type = .cross → e.txn = book e.tid) (x : ℤ) :
    net (committed log) x = net ((slots log).reduceOption.map Transaction.posting) x +
      net ((crossTids log).map fun tid => (book tid).posting) x := by
  induction log with
  | nil => simp [slots, crossTids]
  | cons e log ih =>
    have htail := ih (fun e he => hintra e (List.mem_cons_of_mem _ he))
      fun e he => hcross e (List.mem_cons_of_mem _ he)
    have hposting : e.posting = e.txn.posting := rfl
    rw [← List.singleton_append, committed_append, slots_append, crossTids_append, net_append,
      htail, List.reduceOption_append, List.map_append, net_append, List.map_append, net_append]
    cases ht : e.type with
    | intra =>
      have hs := hintra e List.mem_cons_self ht
      simp [committed, slots, crossTids, WALEntry.intraTxn, ht, hs, hposting]
      ring
    | cross =>
      have htxn := hcross e List.mem_cons_self ht
      by_cases hs : e.status = .committed
      · simp [committed, slots, crossTids, WALEntry.intraTxn, ht, hs, hposting, htxn]
        ring
      · simp [committed, slots, crossTids, WALEntry.intraTxn, ht, hs]

/-- Two lists that agree up to a position and hold nothing after it hold the same. -/
theorem reduceOption_eq {α : Type*} {xs ys : List (Option α)} {m : ℕ}
    (hsame : ∀ k < m, xs[k]? = ys[k]?) (hxs : ∀ k, m ≤ k → ∀ a ∈ xs[k]?, a = none)
    (hys : ∀ k, m ≤ k → ∀ a ∈ ys[k]?, a = none) : xs.reduceOption = ys.reduceOption := by
  have hdrop : ∀ zs : List (Option α), (∀ k, m ≤ k → ∀ a ∈ zs[k]?, a = none) →
      zs.reduceOption = (zs.take m).reduceOption := by
    intro zs hzs
    have hnone : (zs.drop m).reduceOption = [] := by
      rw [List.reduceOption_eq_nil_iff]
      refine ⟨(zs.drop m).length, List.eq_replicate_iff.mpr ⟨rfl, fun a ha => ?_⟩⟩
      obtain ⟨k, hk⟩ := List.mem_iff_getElem?.mp ha
      rw [List.getElem?_drop] at hk
      exact hzs (m + k) (Nat.le_add_right m k) a hk
    conv_lhs => rw [← List.take_append_drop m zs, List.reduceOption_append, hnone, List.append_nil]
  rw [hdrop xs hxs, hdrop ys hys]
  congr 1
  apply List.ext_getElem?
  intro k
  rw [List.getElem?_take, List.getElem?_take]
  split_ifs with hk
  · exact hsame k hk
  · rfl

namespace Server

variable {c : Constants} {fs : FileSystem} {s : Server} {input : Input} {r : Handled}

/-! ### What a handler adds to the two parts -/

/-- What a handler appends that moves `last_inserted` to the end of the log; for a Commit of a
cross-shard transaction that is nothing. -/
def covering (c : Constants) (s : Server) : Input → Option (List (Option Transaction))
  | .request (.transfer request) => if s.Commits request then some [some request.txn] else none
  | .request (.tpcPrepare request) => if s.Proposes c request then some [none] else none
  | .request (.accept request) =>
      if s.iAmDisconnected = false ∧ s.promised = true ∧
          request.ballot.num = s.promisedNum.num ∧ s.inCluster c request.r.txn = 1
        then some [none] else none
  | .request (.commit request) =>
      if s.Releases request
        then some (if s.inCluster c s.acceptVal.txn = 2 then [some s.acceptVal.txn] else [])
        else none
  | .reply (.sync _) .ok (.sync response) =>
      if response.ack then some (slots (response.logs.map fromLogEntry)) else none
  | _ => none

/-- The tids of the cross-shard transactions that a handler commits. -/
def settling (s : Server) : Input → List ℤ
  | .request (.tpcCommit request) =>
      if s.iAmDisconnected = false ∧ (s.wal.pending request.tid).isSome ∧ request.tid ≠ -1
        then [request.tid] else []
  | .reply (.sync _) .ok (.sync response) =>
      if response.ack then crossTids (response.logs.map fromLogEntry) else []
  | _ => []

/-- The entries of a Sync reply go right after the entry of `last_inserted`. -/
def SyncsAtEnd (s : Server) : Input → Prop
  | .reply (.sync _) .ok (.sync response) => response.ack = true → s.lastInserted = s.log.length - 1
  | _ => True

instance (s : Server) (input : Input) : Decidable (s.SyncsAtEnd input) := by
  unfold SyncsAtEnd
  split <;> infer_instance

/-- A handler covers what it appends, with all that is before, or leaves `last_inserted` alone
and appends no transfer. -/
theorem Acted.slots (h : Acted c fs s input r) (hfs : fs.working) (hindex : s.wal.Indexed)
    (hsync : s.SyncsAtEnd input) :
    (∃ appended ∈ s.covering c input, slots r.server.log = slots s.log ++ appended ∧
      r.server.lastInserted = r.server.log.length - 1) ∨
    r.server.lastInserted = s.lastInserted ∧
      (slots r.server.log = slots s.log ∨ slots r.server.log = slots s.log ++ [none]) := by
  cases h with
  | accepting isCrossShard request d hown hprep hmaj hcond hd =>
    subst hd
    cases isCrossShard with
    | false => exact .inr ⟨rfl, .inl rfl⟩
    | true =>
      refine .inl ⟨[none], if_pos ⟨hown, hprep, hmaj, hcond⟩, ?_, ?_⟩
      · simp [prepareTransaction_eq, TpcBank.slots, WALEntry.intraTxn]
      · simp [prepareTransaction_eq]
  | committed request d hown hprep hacc hmaj hd =>
    subst hd
    obtain ⟨-, -, hentry⟩ := WAL.commitTransaction_spec (hfs 0) hindex request s.acceptNum
    refine .inl ⟨[some request.txn], if_pos ⟨hown, hprep, hacc, hmaj⟩, ?_, ?_⟩
    · simp [commitTransaction_eq, hentry, TpcBank.slots, WALEntry.intraTxn]
    · simp [commitTransaction_eq]
  | accepted request d hconn hprom hnum hd =>
    subst hd
    by_cases hone : s.inCluster c request.r.txn = 1
    · refine .inl ⟨[none], if_pos ⟨hconn, hprom, hnum, hone⟩, ?_, ?_⟩
      · simp [hone, prepareTransaction_eq, TpcBank.slots, WALEntry.intraTxn]
      · simp [hone, prepareTransaction_eq]
    · refine .inr ⟨?_, .inl ?_⟩ <;> simp [hone]
  | released request d hconn hprom hacc hd =>
    subst hd
    obtain ⟨-, -, hentry⟩ := WAL.commitTransaction_spec (hfs 0) hindex s.acceptVal s.acceptNum
    refine .inl ⟨_, if_pos ⟨hconn, hprom, hacc⟩, ?_, ?_⟩
    · by_cases htwo : s.inCluster c s.acceptVal.txn = 2
      · simp [htwo, commitTransaction_eq, hentry, TpcBank.slots, WALEntry.intraTxn]
      · simp [htwo]
    · by_cases htwo : s.inCluster c s.acceptVal.txn = 2 <;> simp [htwo, commitTransaction_eq]
  | decided isCommit request d locks hconn hd hlocks =>
    subst hd
    refine .inr ⟨rfl, ?_⟩
    have heffect := (processTpcDecision_log (c := c) hfs hindex hconn isCommit request none).2
    rw [data_log]
    generalize hinput : Input.request (.decision isCommit request) = input,
      (s.processTpcDecision c fs request isCommit).log = log,
      (s.processTpcDecision c fs request isCommit).wal.pending = pending at heffect
    cases heffect with
    | kept => exact .inl rfl
    | decided _ _ e _ hconn hpending htid htype =>
      split_ifs
      · exact .inr (by simp [TpcBank.slots, WALEntry.intraTxn, htype])
      · exact .inl rfl
    | _ => cases isCommit <;> cases hinput
  | synced request response d hack hd =>
    subst hd
    have hend : s.lastInserted = s.log.length - 1 := hsync hack
    refine .inl ⟨TpcBank.slots (response.logs.map fromLogEntry), if_pos hack, ?_, ?_⟩
    · simp [syncEntries_log]
    · simp only [data_log, syncEntries_log, List.length_append, List.length_map]
      omega
  | _ => exact .inr ⟨rfl, .inl rfl⟩

theorem processTpcDecision_crossTids (hfs : fs.working) (hindex : s.wal.Indexed)
    (hconn : s.iAmDisconnected = false) (request : TpcTid) :
    crossTids (s.processTpcDecision c fs request true).log =
      crossTids s.log ++ s.settling (.request (.tpcCommit request)) := by
  have heq : s.processTpcDecision c fs request true = _ :=
    processTpcDecision_eq request true hconn
  have hlog : (s.processTpcDecision c fs request true).log =
      if (s.wal.commitTransactionTid fs request).2.tid ≠ -1
        then s.log ++ [(s.wal.commitTransactionTid fs request).2] else s.log := by
    rw [heq]
    rfl
  rw [hlog]
  unfold settling WAL.commitTransactionTid
  cases hp : s.wal.pending request.tid with
  | none =>
    rw [WAL.endTransaction_none hindex hp]
    simp [WALEntry.notFound, hp]
  | some e =>
    obtain ⟨-, -, hentry⟩ := WAL.endTransaction_some "CS_COMMIT".toList .committed hfs hindex hp
    obtain ⟨htid, htype, -⟩ := hindex.pending_fields hp
    rw [hentry]
    by_cases hne : request.tid = -1
    · simp [htid, hne]
    · simp [htid, hne, hconn, hp, crossTids, htype]

/-- A handler commits the cross-shard transactions that it settles, and no others. -/
theorem react_crossTids (hfs : fs.working) (hindex : s.wal.Indexed) :
    crossTids (s.react c fs input).server.log = crossTids s.log ++ s.settling input := by
  by_cases hcommit : ∃ request, input = .request (.tpcCommit request)
  · obtain ⟨request, rfl⟩ := hcommit
    show crossTids (s.processTpcDecision c fs request true).log = _
    by_cases hconn : s.iAmDisconnected = true
    · rw [processTpcDecision_disconnected request true hconn]
      simp [settling, hconn]
    · exact processTpcDecision_crossTids hfs hindex (by simpa using hconn) request
  by_cases hsync : ∃ q response, input = .reply (.sync q) .ok (.sync response) ∧ response.ack = true
  · obtain ⟨q, response, rfl, hack⟩ := hsync
    show crossTids (s.handleSyncReply c fs .ok response).log = _
    simp [handleSyncReply, settling, hack, syncEntries_log]
  have hnone : s.settling input = [] := by
    unfold settling
    split
    · rename_i request
      exact absurd ⟨request, rfl⟩ hcommit
    · rename_i q response
      exact if_neg fun hack => hsync ⟨q, response, rfl, hack⟩
    · rfl
  rw [hnone, List.append_nil]
  have hacted : Acted c fs s input _ := react_acted input
  have heffect := (hacted.effect.logEffect hfs hindex).2
  rw [← data_log (s.react c fs input).server]
  generalize (s.react c fs input).response = response,
    (s.react c fs input).server.data = d at heffect
  generalize d.log = log, d.wal.pending = pending at heffect
  cases heffect with
  | kept => rfl
  | leaderPrepared => simp [crossTids, preparedEntry]
  | followerPrepared => simp [crossTids, preparedEntry]
  | leaderCommitted => simp [crossTids, committedEntry]
  | followerCommitted => simp [crossTids, committedEntry]
  | decided isCommit request =>
    cases isCommit with
    | true => exact absurd ⟨request, rfl⟩ hcommit
    | false => split_ifs <;> simp [crossTids, decision]
  | synced request response hack => exact absurd ⟨request, response, rfl, hack⟩ hsync

end Server
end TpcBank
