import TpcBank.Provenance
import TpcBank.Replay

/-! The WAL determines the log: the lines that a server has appended to its WAL file decode to
its log, and the index holds the tids whose last cross-shard record is a prepare. -/
namespace TpcBank
open Decimal Transition

/-! ### Decoding the file -/

/-- The kind of transaction and the status that the tag of a record stands for. -/
def recordKind (command : Text) : Option (TransactionType × TransactionStatus) :=
  if command = "IN_COMMIT".toList ∨ command = "IS_COMMIT".toList then some (.intra, .committed)
  else if command = "CS_PREPARE".toList then some (.cross, .prepared)
  else if command = "CS_COMMIT".toList then some (.cross, .committed)
  else if command = "CS_ABORT".toList then some (.cross, .aborted)
  else none

def decodeRecord (line : Text) : Option WALEntry := do
  let (command, _) ← readWord line
  let (type, status) ← recordKind command
  let e ← parseRecord line
  some { e with type, status }

/-- The entries of the lines of a text; every line ends with a line feed. -/
def decodeLines (text : Text) : Option (List WALEntry) :=
  (text.splitOn '\n').dropLast.mapM decodeRecord

/-- The line of a record, without the line feed. -/
def recordLine (command : Text) (e : WALEntry) : Text :=
  command ++ ' ' :: decimal e.tid ++ ' ' :: decimal e.ballotNum ++ ' ' :: decimal e.ballotServerId ++
    ' ' :: decimal e.txn.sender ++ ' ' :: decimal e.txn.receiver ++ ' ' :: decimal e.txn.amount

theorem record_eq (command : Text) (e : WALEntry) : record command e = recordLine command e ++ ['\n'] :=
  rfl

theorem recordKind_word {command : Text} {kind : TransactionType × TransactionStatus}
    (h : recordKind command = some kind) :
    command ≠ [] ∧ ∀ d ∈ command, d.isWhitespace = false := by
  unfold recordKind at h
  split_ifs at h with h1 h2 h3 h4
  · rcases h1 with rfl | rfl <;> simp
  · subst h2
    simp
  · subst h3
    simp
  · subst h4
    simp

theorem recordLine_no_newline {command : Text} (hc : ∀ d ∈ command, d.isWhitespace = false)
    (e : WALEntry) : '\n' ∉ recordLine command e := by
  have hcommand : '\n' ∉ command := fun h => absurd (hc _ h) (by decide)
  simp [recordLine, hcommand, decimal_no_newline]

theorem decodeRecord_recordLine {command : Text} {e : WALEntry}
    (h : recordKind command = some (e.type, e.status)) :
    decodeRecord (recordLine command e) = some e := by
  obtain ⟨hne, hc⟩ := recordKind_word h
  obtain ⟨rest, hword⟩ : ∃ rest, readWord (recordLine command e) = some (command, rest) := by
    unfold recordLine
    simp only [List.append_assoc, List.cons_append]
    exact ⟨_, readWord_append hc hne⟩
  have hparse : parseRecord ((record command e ++ []).takeWhile (· ≠ '\n')) = _ :=
    parseRecord_record e hne hc
  have hline : (record command e ++ []).takeWhile (· ≠ '\n') = recordLine command e := by
    rw [List.append_nil, record_eq]
    apply takeWhile_append_front
    · intro d hd
      have : d ≠ '\n' := fun heq => recordLine_no_newline hc e (heq ▸ hd)
      simpa using this
    · simp
  rw [hline] at hparse
  simp [decodeRecord, hword, h, hparse]

/-- A text made of lines splits into them. -/
theorem splitOn_lines {lines : List Text} (h : ∀ line ∈ lines, '\n' ∉ line) :
    (lines.flatMap (· ++ ['\n'])).splitOn '\n' = lines ++ [[]] := by
  induction lines with
  | nil => simp
  | cons line lines ih =>
    have hline : ∀ d ∈ line, (d == '\n') = false := by
      intro d hd
      have : d ≠ '\n' := fun heq => h line List.mem_cons_self (heq ▸ hd)
      simpa using this
    have hrest := ih fun line hl => h line (List.mem_cons_of_mem _ hl)
    rw [List.splitOn_eq_splitOnP] at hrest ⊢
    rw [List.flatMap_cons, List.append_assoc, List.singleton_append,
      List.splitOnP_append_cons_of_forall_mem hline _ (by simp), hrest]
    rfl

/-- The last cross-shard entry of a tid. -/
def lastCross (log : List WALEntry) (tid : ℤ) : Option WALEntry :=
  (log.filter fun e => e.type = .cross ∧ e.tid = tid).getLast?

theorem lastCross_snoc (log : List WALEntry) (e : WALEntry) (tid : ℤ) :
    lastCross (log ++ [e]) tid =
      if e.type = .cross ∧ e.tid = tid then some e else lastCross log tid := by
  unfold lastCross
  by_cases h : e.type = .cross ∧ e.tid = tid <;> simp [h]

theorem lastCross_some {log : List WALEntry} {tid : ℤ} {e : WALEntry}
    (h : lastCross log tid = some e) : e ∈ log ∧ e.type = .cross ∧ e.tid = tid := by
  have hmem := List.mem_of_getLast? h
  simpa using hmem

/-! ### The invariant -/

/-- A transaction between two clusters. -/
def Constants.Crosses (c : Constants) (txn : Transaction) : Prop :=
  c.getClusterIdFromClientId txn.sender ≠ c.getClusterIdFromClientId txn.receiver

/-- An entry of the one transaction that its tid names, with a status it can have. -/
structure WALEntry.Names (c : Constants) (named : ℤ → Transaction) (e : WALEntry) : Prop where
  positive : 0 < e.tid
  txn : e.txn = named e.tid
  cross : e.type = .cross ↔ c.Crosses e.txn
  kind : e.type = .intra ∧ e.status = .committed ∨ e.type = .cross ∧ e.status ≠ .noStatus

/-- What was appended to the file decodes to the log, and what the index leads to is the last
cross-shard entry of the log when it is a prepare. -/
structure Durable (c : Constants) (named : ℤ → Transaction) (walFile : Text) (w : WAL)
    (log : List WALEntry) : Prop where
  indexed : w.Indexed
  decoded : ∃ lines : List Text, w.walFile = walFile ++ lines.flatMap (· ++ ['\n']) ∧
    (∀ line ∈ lines, '\n' ∉ line) ∧ lines.mapM decodeRecord = some log
  pending : ∀ tid, w.pending tid = (lastCross log tid).filter fun e => e.status = .prepared
  names : ∀ e ∈ log, e.Names c named

namespace Durable

variable {c : Constants} {named : ℤ → Transaction} {walFile : Text} {w w' : WAL}
  {log : List WALEntry} {fs : FileSystem}

theorem found (c : Constants) (named : ℤ → Transaction) (walFile : Text) :
    Durable c named walFile ⟨walFile, fun _ => none⟩ [] where
  indexed := by
    intro tid position h
    cases h
  decoded := ⟨[], by simp, by simp, rfl⟩
  pending := fun _ => rfl
  names := by simp

/-- A record is appended to the file while its entry is appended to the log. -/
theorem append (h : Durable c named walFile w log) (command : Text) {e : WALEntry}
    (hindexed : w'.Indexed) (hfile : w'.walFile = w.walFile ++ record command e)
    (hkind : recordKind command = some (e.type, e.status)) (hnames : e.Names c named)
    (hpending : ∀ tid, w'.pending tid = if e.type = .cross ∧ e.tid = tid then
      (if e.status = .prepared then some e else none) else w.pending tid) :
    Durable c named walFile w' (log ++ [e]) := by
  obtain ⟨lines, htext, hlines, hdecode⟩ := h.decoded
  refine ⟨hindexed, ⟨lines ++ [recordLine command e], ?_, ?_, ?_⟩, ?_, ?_⟩
  · rw [hfile, htext, record_eq]
    simp
  · intro line hl
    rcases List.mem_append.mp hl with hl | hl
    · exact hlines line hl
    · obtain rfl := List.mem_singleton.mp hl
      exact recordLine_no_newline (recordKind_word hkind).2 e
  · simp [List.mapM_append, hdecode, decodeRecord_recordLine hkind]
  · intro tid
    rw [hpending, lastCross_snoc]
    by_cases hcross : e.type = .cross ∧ e.tid = tid
    · rw [if_pos hcross, if_pos hcross]
      by_cases hprepared : e.status = .prepared <;> simp [Option.filter_some, hprepared]
    · rw [if_neg hcross, if_neg hcross]
      exact h.pending tid
  · intro e' he'
    rcases List.mem_append.mp he' with he' | he'
    · exact h.names e' he'
    · obtain rfl := List.mem_singleton.mp he'
      exact hnames

/-- A pending transaction is in the log. -/
theorem pending_some (h : Durable c named walFile w log) {tid : ℤ} {e : WALEntry}
    (hp : w.pending tid = some e) :
    e ∈ log ∧ e.type = .cross ∧ e.status = .prepared ∧ e.tid = tid := by
  rw [h.pending, Option.filter_eq_some_iff] at hp
  obtain ⟨hlast, hstatus⟩ := hp
  obtain ⟨hmem, htype, htid⟩ := lastCross_some hlast
  exact ⟨hmem, htype, of_decide_eq_true hstatus, htid⟩

theorem prepareTransaction (h : Durable c named walFile w log) (hfs : fs.working)
    (request : TransferReq) (ballot : Ballot)
    (hnames : (preparedEntry request ballot).Names c named) :
    Durable c named walFile (w.prepareTransaction fs request ballot).1
      (log ++ [preparedEntry request ballot]) := by
  obtain ⟨hindexed, hpending⟩ := WAL.prepareTransaction_spec (hfs 0) h.indexed request ballot
  refine h.append "CS_PREPARE".toList hindexed ?_ rfl hnames ?_
  · simp [WAL.prepareTransaction, hfs 0, WAL.write, preparedEntry]
  · intro tid
    rw [hpending]
    by_cases ht : request.tid = tid
    · subst ht
      simp [preparedEntry]
    · simp [preparedEntry, ht, Ne.symm ht]

theorem commitTransaction (h : Durable c named walFile w log) (hfs : fs.working)
    (request : TransferReq) (ballot : Ballot)
    (hnames : (committedEntry request ballot).Names c named) :
    Durable c named walFile (w.commitTransaction fs request ballot).1
      (log ++ [committedEntry request ballot]) := by
  obtain ⟨hindexed, hpending, -⟩ := WAL.commitTransaction_spec (hfs 0) h.indexed request ballot
  refine h.append "IN_COMMIT".toList hindexed ?_ rfl hnames ?_
  · simp [WAL.commitTransaction, hfs 0, WAL.write, committedEntry]
  · intro tid
    simp [hpending, committedEntry]

theorem endTransaction (h : Durable c named walFile w log) (hfs : fs.working) (command : Text)
    {status : TransactionStatus} (hkind : recordKind command = some (.cross, status))
    (hstatus : status ≠ .prepared ∧ status ≠ .noStatus) {request : TpcTid} {e : WALEntry}
    (hp : w.pending request.tid = some e) :
    Durable c named walFile (w.endTransaction command status fs request).1
      (log ++ [{ e with status := status }]) := by
  obtain ⟨hmem, htype, -, htid⟩ := h.pending_some hp
  obtain ⟨hindexed, hpending, hentry⟩ :=
    WAL.endTransaction_some command status hfs h.indexed hp
  have hnames := h.names e hmem
  obtain ⟨position, hi, hrecord⟩ := Option.bind_eq_some_iff.mp hp
  refine h.append command hindexed ?_ (by rw [htype, hkind]) ?_ ?_
  · have hrecord' : w.recordAt position = some e := hrecord
    simp only [WAL.endTransaction, hi, hfs 1, if_true, WAL.getTransactionFromFile, hfs 0,
      hrecord', Option.getD_some, WAL.setIndex_walFile, WAL.write_walFile]
    rw [← htid]
    rfl
  · exact ⟨hnames.positive, hnames.txn, hnames.cross, .inr ⟨htype, hstatus.2⟩⟩
  · intro tid
    rw [hpending]
    by_cases ht : e.tid = tid
    · subst ht
      simp [htype, htid, hstatus.1]
    · rw [Function.update_of_ne (by rw [← htid]; exact Ne.symm ht), if_neg (fun h => ht h.2)]

/-- A synchronized entry is a copy of an entry that some log holds. -/
theorem insertEntry (h : Durable c named walFile w log) {e : WALEntry} (hnames : e.Names c named) :
    Durable c named walFile (w.insertEntry true e) (log ++ [e]) := by
  obtain ⟨hindexed, hpending⟩ := WAL.insertEntry_spec h.indexed e
  refine h.append (WAL.entryTag e) hindexed ?_ ?_ hnames ?_
  · unfold WAL.insertEntry
    cases e.status <;> simp [WAL.write]
  · obtain ⟨tid, num, id, txn, type, status⟩ := e
    have hk := hnames.kind
    cases type <;> cases status <;> simp_all [WAL.entryTag, recordKind]
  · intro tid
    rw [hpending]
    unfold WAL.insertPending
    rcases hnames.kind with ⟨htype, hstatus⟩ | ⟨htype, hstatus⟩
    · -- the tid of an intra-shard entry is of no prepared transaction
      have hnone : w.pending e.tid = none := by
        cases hp : w.pending e.tid with
        | none => rfl
        | some e' =>
          obtain ⟨hmem, htype', -, htid⟩ := h.pending_some hp
          have hnames' := h.names e' hmem
          have hsame : e'.txn = e.txn := by rw [hnames'.txn, hnames.txn, htid]
          have hcross := hnames'.cross.mp htype'
          rw [hsame] at hcross
          rw [hnames.cross.mpr hcross] at htype
          cases htype
      simp only [hstatus, htype]
      rw [← hnone, Function.update_eq_self]
      simp
    · by_cases ht : e.tid = tid
      · subst ht
        cases hs : e.status with
        | noStatus => exact absurd hs hstatus
        | prepared =>
          have hsame : ({ e with type := .cross, status := .prepared } : WALEntry) = e := by
            cases e
            cases htype
            cases hs
            rfl
          simp [htype, hsame]
        | committed => simp [htype]
        | aborted => simp [htype]
      · rw [if_neg (fun h => ht h.2)]
        cases e.status <;> simp [Ne.symm ht]

end Durable

/-! ### The servers that handlers lead to -/

/-- A request under the tid of its transaction. -/
def TransferReq.Named (named : ℤ → Transaction) (r : TransferReq) : Prop :=
  0 < r.tid ∧ r.txn = named r.tid

/-- Every tid names one transaction. -/
def Input.Named (named : ℤ → Transaction) : Input → Prop
  | .request (.tpcPrepare r) | .request (.transfer r) => r.Named named
  | .request (.accept q) => q.r.Named named
  | _ => True

/-- The client sends a prepare only across clusters and a Transfer only inside one. -/
def Input.Routed (c : Constants) : Input → Prop
  | .request (.tpcPrepare r) => c.Crosses r.txn
  | .request (.transfer r) => ¬ c.Crosses r.txn
  | _ => True

/-- The entries that a Sync reply brings. -/
def Input.synced : Input → List LogEntry
  | .reply (.sync _) .ok (.sync res) => res.logs
  | _ => []

namespace Server

/-- The servers that any sequence of handlers with inputs of a kind leads to from a disk, where
every synchronized entry is a copy of an entry in the log of such a server. -/
inductive Grown (c : Constants) (P : Input → Prop) : Disk → Server → Prop
  | init (id : ℤ) (hid : 0 < id) (disk : Disk) : Grown c P disk (init c id disk)
  | handled {disk : Disk} {s : Server} (fs : FileSystem) (input : Input)
      (origin : LogEntry → Disk × Server) (h : Grown c P disk s) (hfs : fs.working)
      (hinput : P input)
      (horigin : ∀ e ∈ input.synced, Grown c P (origin e).1 (origin e).2)
      (hcopy : ∀ e ∈ input.synced, ∃ w ∈ (origin e).2.log, e = getLogEntryFromLocalLog w) :
      Grown c P disk (s.handle c fs input)

variable {c : Constants} {named : ℤ → Transaction} {fs : FileSystem} {s : Server} {input : Input}
  {walFile : Text} {r : Handled}

theorem names_prepared {request : TransferReq} (h : request.Named named)
    (hcross : c.Crosses request.txn) (ballot : Ballot) :
    (preparedEntry request ballot).Names c named where
  positive := h.1
  txn := h.2
  cross := iff_of_true rfl hcross
  kind := .inr ⟨rfl, nofun⟩

theorem names_committed {request : TransferReq} (h : request.Named named)
    (hcross : ¬ c.Crosses request.txn) (ballot : Ballot) :
    (committedEntry request ballot).Names c named where
  positive := h.1
  txn := h.2
  cross := iff_of_false nofun hcross
  kind := .inl ⟨rfl, rfl⟩

theorem durable_synced (hfs : fs.working) {logs : List LogEntry} (i : ℕ)
    (h : Durable c named walFile s.wal s.log)
    (hnames : ∀ e ∈ logs, (fromLogEntry e).Names c named) :
    Durable c named walFile (s.syncEntries c fs i logs).wal (s.syncEntries c fs i logs).log := by
  induction logs generalizing i s with
  | nil => exact h
  | cons e logs ih =>
    rw [syncEntries, hfs i]
    refine ih (i + 1) ?_ fun e he => hnames e (List.mem_cons_of_mem _ he)
    rw [syncEntry_log, syncEntry_wal]
    exact h.insertEntry (hnames e List.mem_cons_self)

theorem durable_decided (hfs : fs.working) (hcluster : 0 < s.clusterId)
    (hconn : s.iAmDisconnected = false) (h : Durable c named walFile s.wal s.log)
    (request : TpcTid) (isCommit : Bool) :
    Durable c named walFile (s.processTpcDecision c fs request isCommit).wal
      (s.processTpcDecision c fs request isCommit).log := by
  cases hp : s.wal.pending request.tid with
  | none => rwa [processTpcDecision_unknown isCommit hcluster h.indexed hp]
  | some e =>
    obtain ⟨hmem, -, -, htid⟩ := h.pending_some hp
    have hpos := (h.names e hmem).positive
    rw [processTpcDecision_eq request isCommit hconn]
    cases isCommit with
    | true =>
      have hend := h.endTransaction hfs "CS_COMMIT".toList rfl
        ⟨by decide, by decide⟩ hp
      have hentry := (WAL.endTransaction_some "CS_COMMIT".toList .committed hfs h.indexed hp).2.2
      simp only [if_true, WAL.commitTransactionTid, hentry, applyTxn]
      rwa [if_pos (by omega)]
    | false =>
      have hend := h.endTransaction hfs "CS_ABORT".toList rfl ⟨by decide, by decide⟩ hp
      have hentry := (WAL.endTransaction_some "CS_ABORT".toList .aborted hfs h.indexed hp).2.2
      simp only [Bool.false_eq_true, if_false, WAL.abortTransaction, hentry]
      rwa [if_pos (by omega)]

/-- Every handler appends to the log what it appends to the file. -/
theorem Acted.durable (hacted : Acted c fs s input r) (hfs : fs.working)
    (hcluster : 0 < s.clusterId) (h : Durable c named walFile s.wal s.log)
    (hheld : s.acceptVal = {} ∨ s.acceptVal.Named named) (hnamed : input.Named named)
    (hrouted : input.Routed c) (hsynced : ∀ e ∈ input.synced, (fromLogEntry e).Names c named) :
    Durable c named walFile r.server.wal r.server.log := by
  have heffect := hacted.effect
  rw [← data_wal r.server, ← data_log r.server]
  generalize r.response = response, r.server.data = d at heffect ⊢
  cases heffect with
  | kept => exact h
  | leaderPrepared request =>
    exact h.prepareTransaction hfs request s.promisedNum (names_prepared hnamed hrouted _)
  | followerPrepared request response hconn hprom hnum hone =>
    exact h.prepareTransaction hfs request.r request.ballot
      (names_prepared hnamed (inCluster_eq_one hone) _)
  | leaderCommitted request =>
    have hcommit := h.commitTransaction hfs request s.acceptNum
      (names_committed hnamed hrouted _)
    rw [commitTransaction_eq]
    dsimp only [data]
    rwa [(WAL.commitTransaction_spec (hfs 0) h.indexed request s.acceptNum).2.2]
  | followerCommitted request response hreleases htwo =>
    obtain ⟨hsender, hreceiver⟩ := inCluster_eq_two.mp htwo
    rcases hheld with hdefault | hheld
    · -- the default request has the client 0, which is in no cluster
      rw [hdefault] at hsender
      have hzero := c.cluster_zero
      dsimp only at hsender
      omega
    · have hcross : ¬ c.Crosses s.acceptVal.txn := fun hne => hne (hsender.trans hreceiver.symm)
      have hcommit := h.commitTransaction hfs s.acceptVal s.acceptNum
        (names_committed hheld hcross _)
      rw [commitTransaction_eq]
      dsimp only [data]
      rwa [(WAL.commitTransaction_spec (hfs 0) h.indexed s.acceptVal s.acceptNum).2.2]
  | decided request isCommit response hconn =>
    exact durable_decided hfs hcluster hconn h request isCommit
  | synced request response => exact durable_synced hfs 0 h hsynced

theorem Grown.durable {disk : Disk}
    (h : Grown c (fun input => input.Named named ∧ input.Routed c) disk s) :
    0 < s.clusterId ∧ (s.acceptVal = {} ∨ s.acceptVal.Named named) ∧
      Durable c named disk.walFile s.wal s.log := by
  induction h with
  | init id hid disk => exact ⟨c.clusterIdFromServerId_pos hid, .inl rfl, .found c named _⟩
  | handled fs input origin h hfs hinput horigin hcopy ih ihorigin =>
    rename_i disk s
    obtain ⟨hnamed, hrouted⟩ := hinput
    obtain ⟨hcluster, hheld, hdurable⟩ := ih
    have hacted : Acted c fs s input _ := react_acted input
    have hsynced : ∀ e ∈ input.synced, (fromLogEntry e).Names c named := by
      intro e he
      obtain ⟨w, hw, rfl⟩ := hcopy e he
      rw [fromLogEntry_getLogEntryFromLocalLog]
      exact (ihorigin _ he).2.2.names w hw
    refine ⟨?_, ?_, hacted.durable hfs hcluster hdurable hheld hnamed hrouted hsynced⟩
    · rwa [handle, show (s.react c fs input).server.clusterId = s.clusterId from
        congrArg (fun p => p.2.1) hacted.identity]
    · rcases hacted.acceptVal_cases with hsame | ⟨x, hinput⟩ | ⟨q, hinput, hval⟩
      · rw [handle, hsame]
        exact hheld
      · right
        have hpoll := hinput ▸ hnamed
        cases x <;> exact hpoll
      · right
        have haccept : (Input.request (.accept q)).Named named := hinput ▸ hnamed
        rwa [handle, hval]

/-- Where the client sends a prepare only across clusters and a Transfer only inside one, what a
server has appended to its WAL file decodes to its log, and its index holds the tids whose last
cross-shard record is a prepare. -/
theorem wal_determines_log {disk : Disk}
    (h : Grown c (fun input => input.Named named ∧ input.Routed c) disk s) :
    (∃ text, s.wal.walFile = disk.walFile ++ text ∧ decodeLines text = some s.log) ∧
      ∀ tid, (s.wal.transferIndex tid).isSome =
        (lastCross s.log tid).any fun e => e.status = .prepared := by
  obtain ⟨-, -, hdurable⟩ := h.durable
  constructor
  · obtain ⟨lines, htext, hlines, hdecode⟩ := hdurable.decoded
    refine ⟨_, htext, ?_⟩
    rw [decodeLines, splitOn_lines hlines, List.dropLast_concat, hdecode]
  · intro tid
    have hnone := (hdurable.indexed.pending_eq_none : s.wal.pending tid = none ↔ _)
    rw [hdurable.pending] at hnone
    cases hi : s.wal.transferIndex tid with
    | none =>
      have hlast := hnone.mpr hi
      cases hl : lastCross s.log tid with
      | none => rfl
      | some e =>
        rw [hl, Option.filter_some] at hlast
        simpa using hlast
    | some position =>
      have hlast := mt hnone.mp (by simp [hi])
      cases hl : lastCross s.log tid with
      | none =>
        rw [hl] at hlast
        exact absurd rfl hlast
      | some e =>
        rw [hl, Option.filter_some] at hlast
        simpa using hlast

/-- Handlers that no Sync reply is among. -/
theorem Grown.foldl {P : Input → Prop} {disk : Disk} {inputs : List Input} (h : Grown c P disk s)
    (hinputs : ∀ input ∈ inputs, P input ∧ input.synced = []) :
    Grown c P disk (inputs.foldl (fun s input => s.handle c .allOpen input) s) := by
  induction inputs generalizing s with
  | nil => exact h
  | cons input inputs ih =>
    obtain ⟨hinput, hnone⟩ := hinputs input List.mem_cons_self
    refine ih ?_ fun input hi => hinputs input (List.mem_cons_of_mem _ hi)
    refine h.handled .allOpen input (fun _ => (disk, s)) FileSystem.allOpen_working hinput ?_ ?_
    all_goals simp [hnone]

/-- A follower whose file ends in a torn line accepts a cross-shard transfer out of client 1,
and the client commits it. -/
theorem wal_determines_log_crossShard :
    ∃ s, s = (crossShardInputs.map Prod.fst).foldl (fun s input => s.handle .standard .allOpen input)
        (init .standard 1 ⟨"IN_COMMIT 5 1".toList, fun _ => none⟩) ∧
      s.log.length = 2 ∧
      ∃ text, s.wal.walFile = "IN_COMMIT 5 1".toList ++ text ∧ decodeLines text = some s.log := by
  refine ⟨_, rfl, by decide +kernel, ?_⟩
  have hinputs : ∀ input ∈ crossShardInputs.map Prod.fst,
      (input.Named (fun _ => ⟨1, 1500, 3⟩) ∧ input.Routed .standard) ∧ input.synced = [] := by
    simp [crossShardInputs, Input.Named, Input.Routed, Input.synced, TransferReq.Named]
  exact (wal_determines_log ((Grown.init 1 (by decide) _).foldl hinputs)).1

/-- A follower commits a transfer inside the cluster. -/
def followedInputs : List Input :=
  [.request (.prepare ⟨⟨2, 2⟩, -1⟩), .request (.accept ⟨⟨2, 2⟩, ⟨⟨1, 2, 3⟩, 7⟩⟩),
    .request (.commit ⟨⟨2, 2⟩⟩)]

/-- A leader prepares the same transfer. -/
def preparedInputs : List Input :=
  [.request (.tpcPrepare ⟨⟨1, 2, 3⟩, 7⟩),
    .reply (.prepare ⟨⟨1, 1⟩, -1⟩) .ok (.prepare { ack := true, ballot := ⟨1, 1⟩ }),
    .request (.tpcPrepare ⟨⟨1, 2, 3⟩, 7⟩)]

/-- A synchronized commit inside the cluster takes the tid of a prepare out of the index. -/
theorem not_wal_determines_log_preparedInside :
    ∃ s, Grown .standard (Input.Named fun _ => ⟨1, 2, 3⟩) .empty s ∧
      (s.wal.transferIndex 7).isSome = false ∧
      (lastCross s.log 7).any (fun e => e.status = .prepared) = true := by
  let run (s : Server) (inputs : List Input) :=
    inputs.foldl (fun s input => s.handle .standard .allOpen input) s
  let follower := run (init .standard 3 .empty) followedInputs
  let leader := run (init .standard 1 .empty) preparedInputs
  let e := committedEntry ⟨⟨1, 2, 3⟩, 7⟩ ⟨2, 2⟩
  have hfollower : Grown .standard (Input.Named fun _ => ⟨1, 2, 3⟩) .empty follower :=
    (Grown.init 3 (by decide) .empty).foldl
      (by simp [followedInputs, Input.Named, Input.synced, TransferReq.Named])
  have hleader : Grown .standard (Input.Named fun _ => ⟨1, 2, 3⟩) .empty leader :=
    (Grown.init 1 (by decide) .empty).foldl
      (by simp [preparedInputs, Input.Named, Input.synced, TransferReq.Named])
  have hlog : follower.log = [e] := by decide +kernel
  refine ⟨_, hleader.handled .allOpen
    (.reply (.sync ⟨0⟩) .ok (.sync ⟨true, [getLogEntryFromLocalLog e], ⟨2, 2⟩⟩))
    (fun _ => (.empty, follower)) FileSystem.allOpen_working trivial (fun _ _ => hfollower) ?_,
    by decide +kernel, by decide +kernel⟩
  intro e' he'
  obtain rfl := List.mem_singleton.mp he'
  exact ⟨e, by rw [hlog]; exact List.mem_singleton_self e, rfl⟩

end Server
end TpcBank
