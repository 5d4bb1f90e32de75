import TpcBank.AtMostOnce
import TpcBank.Replay

/-! The index `last_inserted` of the log: it stays within the log whatever handlers run, so a
Sync reads no entry outside of the log. -/
namespace TpcBank
namespace Server

variable {c : Constants} {fs : FileSystem} {s : Server} {input : Input} {r : Handled}

/-- A server after any sequence of handlers. -/
def handleAll (c : Constants) (s : Server) (es : List (Input × FileSystem)) : Server :=
  es.foldl (fun s e => s.handle c e.2 e.1) s

/-- `last_inserted` is the index of an entry, or -1 when there is none. -/
def IndexInLog (s : Server) : Prop := -1 ≤ s.lastInserted ∧ s.lastInserted ≤ s.log.length - 1

/-- No handler lowers `last_inserted`. -/
theorem Acted.lastInserted_le (h : Acted c fs s input r) (hs : s.IndexInLog) :
    s.lastInserted ≤ r.server.lastInserted := by
  have hhigh := hs.2
  cases h with
  | accepting isCrossShard => cases isCrossShard <;> simp; omega
  | committed =>
    dsimp only
    omega
  | accepted request =>
    dsimp only
    split_ifs <;> omega
  | released request =>
    dsimp only
    split_ifs <;> omega
  | synced request response =>
    dsimp only
    omega
  | _ => exact le_rfl

/-- Every handler keeps `last_inserted` in the log. -/
theorem Acted.indexInLog (h : Acted c fs s input r) (hs : s.IndexInLog) : r.server.IndexInLog := by
  have hlen := h.log_grows.length_le
  have hhigh := hs.2
  refine ⟨hs.1.trans (h.lastInserted_le hs), ?_⟩
  cases h with
  | accepting isCrossShard request d hown hprep hmaj hcond hd =>
    subst hd
    cases isCrossShard with
    | true => simp [prepareTransaction_eq]
    | false => simpa using hhigh
  | committed request d hown hprep hacc hmaj hd =>
    subst hd
    simp [commitTransaction_log]
  | accepted request d hconn hprom hnum hd =>
    subst hd
    dsimp only
    split_ifs
    · simp [prepareTransaction_eq]
    · simpa using hhigh
  | released request d hconn hprom hacc hd =>
    subst hd
    dsimp only
    split_ifs
    · simp [commitTransaction_log]
    · simp
  | synced request response d hack hd =>
    subst hd
    simp only [data_log, syncEntries_log, List.length_append, List.length_map]
    omega
  | decided =>
    dsimp only at hlen ⊢
    omega
  | _ => exact hhigh

theorem handleAll_grows (hs : s.IndexInLog) (es : List (Input × FileSystem)) :
    (s.handleAll c es).IndexInLog ∧ s.lastInserted ≤ (s.handleAll c es).lastInserted ∧
      s.log <+: (s.handleAll c es).log := by
  induction es generalizing s with
  | nil => exact ⟨hs, le_rfl, List.prefix_rfl⟩
  | cons e es ih =>
    have hacted : Acted c e.2 s e.1 _ := react_acted e.1
    obtain ⟨hindex, hle, hpre⟩ := ih (hacted.indexInLog hs)
    exact ⟨hindex, (hacted.lastInserted_le hs).trans hle, hacted.log_grows.trans hpre⟩

/-! ### The entries that a Sync reads -/

/-- What the loop of `processSyncCall` reads: the log at each index from `commit_idx + 1` on. -/
structure SyncInLog (s : Server) (request : SyncReq) : Prop where
  inRange : ∀ i : ℤ, request.lastInserted + 1 ≤ i → i < s.log.length →
    0 ≤ i ∧ ∃ e, s.log[i.toNat]? = some e
  reads : (s.processSyncCall request).ack = true → ∀ i : ℤ, request.lastInserted + 1 ≤ i →
    (s.processSyncCall request).logs[(i - (request.lastInserted + 1)).toNat]? =
      (s.log[i.toNat]?).map getLogEntryFromLocalLog
  nonempty : (s.processSyncCall request).ack = true → (s.processSyncCall request).logs ≠ []

theorem IndexInLog.sync (hs : s.IndexInLog) {request : SyncReq}
    (hrequest : -1 ≤ request.lastInserted) : s.SyncInLog request := by
  have hhigh := hs.2
  have hacked : (s.processSyncCall request).ack = true →
      request.lastInserted < s.lastInserted ∧ (s.processSyncCall request).logs =
        (s.log.drop (request.lastInserted + 1).toNat).map getLogEntryFromLocalLog := by
    intro hack
    unfold processSyncCall at hack ⊢
    by_cases hlt : request.lastInserted < s.lastInserted
    · rw [if_pos hlt, if_neg (by omega)]
      exact ⟨hlt, rfl⟩
    · rw [if_neg hlt] at hack
      cases hack
  constructor
  · intro i hlow hlt
    exact ⟨by omega, _, List.getElem?_eq_getElem (by omega)⟩
  · intro hack i hlow
    obtain ⟨-, hlogs⟩ := hacked hack
    rw [hlogs, List.getElem?_map, List.getElem?_drop]
    congr 2
    omega
  · intro hack
    obtain ⟨hlt, hlogs⟩ := hacked hack
    rw [hlogs, ne_eq, List.map_eq_nil_iff, List.drop_eq_nil_iff]
    omega

/-- In every run `last_inserted` is an index of the log or -1, it never decreases, the log only
grows at its end, and a Sync that asks from -1 or later reads within the log; its
acknowledgement carries an entry. -/
theorem log_index_safe (c : Constants) (id : ℤ) (disk : Disk) (es es' : List (Input × FileSystem)) :
    ((init c id disk).handleAll c es).IndexInLog ∧
      ((init c id disk).handleAll c es).lastInserted ≤
        ((init c id disk).handleAll c (es ++ es')).lastInserted ∧
      ((init c id disk).handleAll c es).log <+: ((init c id disk).handleAll c (es ++ es')).log ∧
      ∀ request : SyncReq, -1 ≤ request.lastInserted →
        ((init c id disk).handleAll c es).SyncInLog request := by
  have hinit : (init c id disk).IndexInLog := ⟨le_rfl, le_rfl⟩
  have hindex := (handleAll_grows hinit es (c := c)).1
  have hlater := handleAll_grows hindex es' (c := c)
  rw [handleAll, handleAll, List.foldl_append]
  exact ⟨hindex, hlater.2.1, hlater.2.2, fun request hrequest => hindex.sync hrequest⟩

end Server
end TpcBank
