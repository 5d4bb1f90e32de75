import TpcBank.Library.Transition
import TpcBank.Wal

/-! The WAL against its history: what a decision finds in the file is the latest prepared record
of its tid that no decision has followed, over any sequence of calls. -/
namespace TpcBank
open Decimal Transition

/-- A call of one of the five operations of the class. -/
inductive WALCall
  | prepareTransaction (request : TransferReq) (ballot : Ballot)
  | commitTransaction (request : TransferReq) (ballot : Ballot)
  | commitTransactionTid (request : TpcTid)
  | abortTransaction (request : TpcTid)
  | insertEntry (entry : WALEntry)

namespace WALCall

/-- The call writes a `PREPARED` record of a tid. -/
def prepares (tid : ℤ) : WALCall → Option WALEntry
  | .prepareTransaction request ballot =>
      if request.tid = tid then
        some ⟨request.tid, ballot.num, ballot.serverId, request.txn, .cross, .prepared⟩
      else none
  | .insertEntry e => if e.tid = tid ∧ e.status = .prepared then some e else none
  | _ => none

/-- The call is a decision for a tid, or inserts a decided entry of it. -/
def settles (tid : ℤ) : WALCall → Prop
  | .commitTransactionTid request | .abortTransaction request => request.tid = tid
  | .insertEntry e => e.tid = tid ∧ (e.status = .committed ∨ e.status = .aborted)
  | _ => False

end WALCall

/-- The latest `PREPARED` record written for a tid, when nothing has settled the tid since. -/
def Latest (calls : List WALCall) (tid : ℤ) (e : WALEntry) : Prop :=
  ∃ before call after, calls = before ++ call :: after ∧ call.prepares tid = some e ∧
    ∀ later ∈ after, later.prepares tid = none ∧ ¬ later.settles tid

theorem latest_nil {tid : ℤ} {e : WALEntry} : ¬ Latest [] tid e := by
  rintro ⟨before, call, after, h, -⟩
  simp at h

theorem latest_snoc {calls : List WALCall} {call : WALCall} {tid : ℤ} {e : WALEntry} :
    Latest (calls ++ [call]) tid e ↔ call.prepares tid = some e ∨
      (call.prepares tid = none ∧ ¬ call.settles tid) ∧ Latest calls tid e := by
  constructor
  · rintro ⟨before, call', after, heq, hprepares, hafter⟩
    rcases List.eq_nil_or_concat after with rfl | ⟨after, last, rfl⟩
    · obtain ⟨rfl, hcall⟩ := List.append_inj' heq rfl
      obtain rfl := List.singleton_inj.mp hcall
      exact .inl hprepares
    · rw [List.concat_eq_append, ← List.cons_append, ← List.append_assoc] at heq
      obtain ⟨rfl, hcall⟩ := List.append_inj' heq rfl
      obtain rfl := List.singleton_inj.mp hcall
      refine .inr ⟨hafter call (by simp), before, call', after, rfl, hprepares, fun later hl => ?_⟩
      exact hafter later (by simp [hl])
  · rintro (hprepares | ⟨hcall, before, call', after, rfl, hprepares, hafter⟩)
    · exact ⟨calls, call, [], rfl, hprepares, by simp⟩
    · refine ⟨before, call', after ++ [call], by simp, hprepares, fun later hl => ?_⟩
      rcases List.mem_append.mp hl with hl | hl
      · exact hafter later hl
      · obtain rfl := List.mem_singleton.mp hl
        exact hcall

namespace WAL

/-- The file as it is found, before the first call. -/
def found (walFile : Text) : WAL := ⟨walFile, fun _ => none⟩

def perform (w : WAL) (fs : FileSystem) : WALCall → WAL
  | .prepareTransaction request ballot => (w.prepareTransaction fs request ballot).1
  | .commitTransaction request ballot => (w.commitTransaction fs request ballot).1
  | .commitTransactionTid request => (w.commitTransactionTid fs request).1
  | .abortTransaction request => (w.abortTransaction fs request).1
  | .insertEntry e => w.insertEntry (fs.opens 0) e

/-- One call, with what the file system does during it. -/
def step (w : WAL) (call : WALCall × FileSystem) : Option WAL :=
  some (w.perform call.2 call.1)

variable {w : WAL} {fs : FileSystem}

theorem endTransaction_spec (command : Text) (status : TransactionStatus) (hfs : fs.working)
    (h : w.Indexed) (request : TpcTid) :
    (w.endTransaction command status fs request).1.Indexed ∧
      (w.endTransaction command status fs request).1.pending =
        Function.update w.pending request.tid none := by
  cases hp : w.pending request.tid with
  | none =>
    rw [endTransaction_none h hp]
    refine ⟨h, ?_⟩
    rw [← hp, Function.update_eq_self]
  | some e =>
    obtain ⟨hindexed, hpending, -⟩ := endTransaction_some command status hfs h hp
    exact ⟨hindexed, hpending⟩

/-- One call prepares a record, settles a tid, or leaves the pending transaction of a tid. -/
theorem perform_spec (hfs : fs.working) (h : w.Indexed) (call : WALCall) :
    (w.perform fs call).Indexed ∧ ∀ tid,
      (∀ e, call.prepares tid = some e →
        (w.perform fs call).pending tid = some { e with type := .cross }) ∧
      (call.prepares tid = none → call.settles tid → (w.perform fs call).pending tid = none) ∧
      (call.prepares tid = none → ¬ call.settles tid →
        (w.perform fs call).pending tid = w.pending tid) := by
  cases call with
  | prepareTransaction request ballot =>
    obtain ⟨hindexed, hpending⟩ := prepareTransaction_spec (hfs 0) h request ballot
    refine ⟨hindexed, fun tid => ?_⟩
    simp only [perform, hpending, WALCall.prepares, WALCall.settles]
    by_cases ht : request.tid = tid
    · subst ht
      simp
    · simp [ht, Ne.symm ht]
  | commitTransaction request ballot =>
    obtain ⟨hindexed, hpending, -⟩ := commitTransaction_spec (hfs 0) h request ballot
    refine ⟨hindexed, fun tid => ?_⟩
    simp [perform, hpending, WALCall.prepares, WALCall.settles]
  | commitTransactionTid request =>
    obtain ⟨hindexed, hpending⟩ := endTransaction_spec "CS_COMMIT".toList .committed hfs h request
    refine ⟨hindexed, fun tid => ?_⟩
    simp only [perform, commitTransactionTid, hpending, WALCall.prepares, WALCall.settles]
    by_cases ht : request.tid = tid
    · subst ht
      simp
    · simp [ht, Ne.symm ht]
  | abortTransaction request =>
    obtain ⟨hindexed, hpending⟩ := endTransaction_spec "CS_ABORT".toList .aborted hfs h request
    refine ⟨hindexed, fun tid => ?_⟩
    simp only [perform, abortTransaction, hpending, WALCall.prepares, WALCall.settles]
    by_cases ht : request.tid = tid
    · subst ht
      simp
    · simp [ht, Ne.symm ht]
  | insertEntry e =>
    have hopen := hfs 0
    obtain ⟨hindexed, hpending⟩ := insertEntry_spec h e
    simp only [perform, hopen]
    refine ⟨hindexed, fun tid => ?_⟩
    rw [hpending]
    obtain ⟨tid', ballotNum, ballotServerId, txn, type, status⟩ := e
    simp only [insertPending, WALCall.prepares, WALCall.settles]
    by_cases ht : tid' = tid
    · subst ht
      cases status <;> simp
    · cases status <;> simp [ht, Ne.symm ht]

/-- After any calls, the pending transaction of a tid is its latest prepared record. -/
theorem pending_iff_latest {walFile : Text} {calls : List (WALCall × FileSystem)}
    (h : Runs step (fun _ call => call.2.working) (found walFile) calls w) :
    w.Indexed ∧ ∀ tid e, w.pending tid = some e ↔
      ∃ record, Latest (calls.map Prod.fst) tid record ∧ e = { record with type := .cross } := by
  induction h with
  | refl =>
    refine ⟨?_, fun tid e => ?_⟩
    · intro tid position hi
      cases hi
    · simp [found, pending, latest_nil]
  | @snoc calls w w' call hrun hfs hstep ih =>
    obtain ⟨hindexed, ih⟩ := ih
    obtain rfl := Option.some.inj hstep
    obtain ⟨hindexed', hspec⟩ := perform_spec hfs hindexed call.1
    refine ⟨hindexed', fun tid e => ?_⟩
    obtain ⟨hprepares, hsettles, hkeeps⟩ := hspec tid
    simp only [List.map_append, List.map_cons, List.map_nil, latest_snoc]
    cases hp : call.1.prepares tid with
    | some record =>
      rw [hprepares record hp]
      simp [eq_comm]
    | none =>
      by_cases hs : call.1.settles tid
      · simp [hsettles hp hs, hs]
      · simp [hkeeps hp hs, hs, ih]

/-- A decision returns the latest prepared record of its tid, if nothing has settled the tid
since, and otherwise the not-found entry, and then it changes nothing. -/
theorem decision_latest {walFile : Text} {calls : List (WALCall × FileSystem)}
    (h : Runs step (fun _ call => call.2.working) (found walFile) calls w) (hfs : fs.working)
    (tid : ℤ) :
    (∀ e, Latest (calls.map Prod.fst) tid e →
      (w.commitTransactionTid fs ⟨tid⟩).2 = { e with type := .cross, status := .committed } ∧
        (w.abortTransaction fs ⟨tid⟩).2 = { e with type := .cross, status := .aborted }) ∧
    ((∀ e, ¬ Latest (calls.map Prod.fst) tid e) →
      w.commitTransactionTid fs ⟨tid⟩ = (w, WALEntry.notFound) ∧
        w.abortTransaction fs ⟨tid⟩ = (w, WALEntry.notFound)) := by
  obtain ⟨hindexed, hlatest⟩ := pending_iff_latest h
  constructor
  · intro e he
    have hp : w.pending tid = some { e with type := .cross } := (hlatest tid _).mpr ⟨e, he, rfl⟩
    have hp : w.pending (TpcTid.tid ⟨tid⟩) = some { e with type := .cross } := hp
    exact ⟨(endTransaction_some _ _ hfs hindexed hp).2.2,
      (endTransaction_some _ _ hfs hindexed hp).2.2⟩
  · intro hnone
    have hp : w.pending tid = none := by
      cases hp : w.pending tid with
      | none => rfl
      | some e =>
        obtain ⟨record, hrecord, -⟩ := (hlatest tid e).mp hp
        exact absurd hrecord (hnone record)
    have hp : w.pending (TpcTid.tid ⟨tid⟩) = none := hp
    exact ⟨endTransaction_none hindexed hp, endTransaction_none hindexed hp⟩

/-- A file that ends in a torn line, a prepared transaction and a decision for another one. -/
def tornCalls : List (WALCall × FileSystem) :=
  [.prepareTransaction ⟨⟨1, 1001, 3⟩, 7⟩ ⟨1, 1⟩, .commitTransaction ⟨⟨2, 3, 4⟩, 8⟩ ⟨2, 1⟩,
    .abortTransaction ⟨9⟩].map fun call => (call, .allOpen)

theorem decision_latest_tornCalls :
    ∃ w, run step (found "IN_COMMIT 5 1".toList) tornCalls = some w ∧
      (w.commitTransactionTid .allOpen ⟨7⟩).2 = ⟨7, 1, 1, ⟨1, 1001, 3⟩, .cross, .committed⟩ ∧
      w.abortTransaction .allOpen ⟨9⟩ = (w, WALEntry.notFound) := by
  obtain ⟨w, hw⟩ : ∃ w, run step (found "IN_COMMIT 5 1".toList) tornCalls = some w := ⟨_, rfl⟩
  have hruns : Runs step (fun _ call => call.2.working) _ tornCalls w :=
    runs_of_forall hw (by simp [tornCalls, FileSystem.allOpen_working])
  refine ⟨w, hw, ?_, ?_⟩
  · refine ((decision_latest hruns FileSystem.allOpen_working 7).1
      ⟨7, 1, 1, ⟨1, 1001, 3⟩, .cross, .prepared⟩ ?_).1
    refine ⟨[], _, [.commitTransaction ⟨⟨2, 3, 4⟩, 8⟩ ⟨2, 1⟩, .abortTransaction ⟨9⟩], rfl, rfl, ?_⟩
    simp [WALCall.prepares, WALCall.settles]
  · refine ((decision_latest hruns FileSystem.allOpen_working 9).2 ?_).2
    rintro e ⟨before, call, after, hsplit, hprepares, hafter⟩
    have hmem : call ∈ tornCalls.map Prod.fst := by
      rw [hsplit]
      simp
    have hcalls : ∀ call ∈ tornCalls.map Prod.fst, call.prepares 9 = none := by
      simp [tornCalls, WALCall.prepares]
    rw [hcalls call hmem] at hprepares
    cases hprepares

end WAL
end TpcBank
