import TpcBank.Followers
import TpcBank.Quorums

/-! One leader and its followers over whole runs: when each follower handles the messages of the
leader in the order they were sent, and decisions come between rounds, the servers of the cluster
agree whenever every message has been handled. -/
namespace TpcBank
open Transition

/-- A call is a message from `L` that `F` has not handled yet. -/
def Call.waits (L F : ℤ) (call : Call) : Bool :=
  call.src = some L ∧ call.dst = F ∧ call.response = none

/-- The messages from `L` that `F` has not handled yet, the oldest first. -/
def inbox (L F : ℤ) (calls : List Call) : List Request :=
  (calls.filter (Call.waits L F)).map Call.request

section
variable {L F : ℤ} {calls more : List Call} {i : ℕ} {b : Call}

@[simp] theorem inbox_append : inbox L F (calls ++ more) = inbox L F calls ++ inbox L F more := by
  simp [inbox]

theorem eq_take_cons_drop (h : calls[i]? = some b) (b' : Call) :
    calls = calls.take i ++ b :: calls.drop (i + 1) ∧
      calls.set i b' = calls.take i ++ b' :: calls.drop (i + 1) := by
  obtain ⟨hi, rfl⟩ := List.getElem?_eq_some_iff.mp h
  constructor
  · rw [List.getElem_cons_drop, List.take_append_drop]
  · rw [List.set_eq_take_append_cons_drop, if_pos hi]

/-- A call that is changed but keeps waiting, or does not wait, stays where it is. -/
theorem inbox_set (h : calls[i]? = some b) (b' : Call) (hwaits : b'.waits L F = b.waits L F)
    (hrequest : b'.request = b.request) : inbox L F (calls.set i b') = inbox L F calls := by
  obtain ⟨hcalls, hset⟩ := eq_take_cons_drop h b'
  rw [hset]
  conv_rhs => rw [hcalls]
  simp only [inbox, List.filter_append, List.filter_cons, hwaits, List.map_append]
  split_ifs <;> simp [hrequest]

/-- The first waiting call leaves the inbox when it is handled. -/
theorem inbox_handle (h : calls[i]? = some b) (b' : Call) (hb : b.waits L F = true)
    (hfirst : ∀ call ∈ calls.take i, call.waits L F = false) (hdone : b'.waits L F = false) :
    inbox L F calls = b.request :: inbox L F (calls.set i b') := by
  obtain ⟨hcalls, hset⟩ := eq_take_cons_drop h b'
  have hnil : (calls.take i).filter (Call.waits L F) = [] :=
    List.filter_eq_nil_iff.mpr fun call hcall => by simp [hfirst call hcall]
  rw [hset]
  conv_lhs => rw [hcalls]
  simp only [inbox, List.filter_append, List.filter_cons, hnil, hb, hdone, if_true, List.nil_append,
    List.map_cons, Bool.false_eq_true, if_false]

theorem inbox_outCalls_of_ne {id : ℤ} (h : id ≠ L) (sent : List OutCall) :
    inbox L F (Network.outCalls id sent) = [] := by
  have hnil : (Network.outCalls id sent).filter (Call.waits L F) = [] := by
    refine List.filter_eq_nil_iff.mpr fun call hcall => ?_
    have hsrc := (Network.mem_outCalls.mp hcall).2.1
    simp [Call.waits, hsrc, h]
  rw [inbox, hnil, List.map_nil]

/-- A handler that leaves the waiting calls as they are, and sends none of its own or is not the
leader's. -/
theorem inbox_kept (h : calls[i]? = some b) {b' : Call} (hwaits : b'.waits L F = b.waits L F)
    (hrequest : b'.request = b.request) {id : ℤ} {sent : List OutCall}
    (hsent : sent = [] ∨ id ≠ L) :
    inbox L F (calls.set i b' ++ Network.outCalls id sent) = inbox L F calls := by
  rw [inbox_append, inbox_set h b' hwaits hrequest]
  rcases hsent with rfl | hid
  · exact List.append_nil _
  · rw [inbox_outCalls_of_ne hid, List.append_nil]

/-- A broadcast puts one message into the inbox of each peer. -/
theorem inbox_broadcast {s : Server} {request : Request} (hF : F ∈ s.stubs)
    (hnodup : s.stubs.Nodup) : inbox L F (Network.outCalls L (s.broadcast request)) = [request] := by
  have hfilter : (Network.outCalls L (s.broadcast request)).filter (Call.waits L F) =
      (s.stubs.filter (· == F)).map fun dst => ⟨some L, dst, request, none, false⟩ := by
    simp only [Network.outCalls, Server.broadcast, List.map_map, List.filter_map]
    congr 1
    refine List.filter_congr fun dst _ => ?_
    simp only [Function.comp_apply, Call.waits, and_true, true_and]
    rfl
  rw [inbox, hfilter, List.filter_beq, List.count_eq_one_of_mem hnodup hF]
  rfl

end

namespace Constants

/-- A server and its peers. -/
def group (c : Constants) (L : ℤ) : Finset ℤ := insert L (c.peers L).toFinset

theorem mem_group {c : Constants} {L x : ℤ} : x ∈ c.group L ↔ x = L ∨ x ∈ c.peers L := by
  simp [group]

end Constants

/-- A follower obeys some messages one after the other. -/
inductive Drained (c : Constants) : Server → List Request → Server → Prop
  | nil (s : Server) : Drained c s [] s
  | cons {s d : Server} {request : Request} {rest : List Request} (hobeys : s.Obeys request)
      (hrest : Drained c (s.after c request) rest d) : Drained c s (request :: rest) d

theorem Drained.snoc {c : Constants} {s d : Server} {requests : List Request} {request : Request}
    (h : Drained c s requests d) (hobeys : d.Obeys request) :
    Drained c s (requests ++ [request]) (d.after c request) := by
  induction h with
  | nil s => exact .cons hobeys (.nil _)
  | cons hfirst _ ih => exact .cons hfirst (ih hobeys)

/-! ### Decisions -/

/-- A decision that is on its way to the servers of a cluster. -/
structure Deciding where
  isCommit : Bool
  request : TpcTid
  handled : Finset ℤ

def Request.decided : Request → Option (Bool × TpcTid)
  | .tpcCommit request => some (true, request)
  | .tpcAbort request => some (false, request)
  | _ => none

theorem Request.eq_decision {q : Request} {isCommit : Bool} {request : TpcTid}
    (h : q.decided = some (isCommit, request)) : q = .decision isCommit request := by
  cases q with
  | tpcCommit request' =>
    obtain ⟨rfl, rfl⟩ := Prod.mk.inj (Option.some.inj h)
    rfl
  | tpcAbort request' =>
    obtain ⟨rfl, rfl⟩ := Prod.mk.inj (Option.some.inj h)
    rfl
  | _ => cases h

theorem Server.proceed_decision {c : Constants} {fs : FileSystem} {s : Server} (isCommit : Bool)
    (request : TpcTid) : s.proceed c fs (.decision isCommit request) =
      ⟨s.processTpcDecision c fs request isCommit, some .empty, []⟩ := by
  cases isCommit <;> rfl

/-- The server once it has handled the decision under way. -/
def Server.decide (c : Constants) (s : Server) (g : Option Deciding) (x : ℤ) : Server :=
  match g with
  | none => s
  | some g => if x ∈ g.handled then s
    else s.processTpcDecision c .allOpen g.request g.isCommit

namespace Network

/-- The decision under way after an event: it begins at the first server of the group that handles
it and ends at the last one. -/
def deciding (c : Constants) (L : ℤ) (n : Network) (e : Event) (g : Option Deciding) :
    Option Deciding :=
  match acting n e with
  | some (id, _, .request q) =>
      match q.decided with
      | some (isCommit, request) =>
          if id ∈ c.group L then
            let handled := insert id (g.elim ∅ Deciding.handled)
            if handled = c.group L then none else some ⟨isCommit, request, handled⟩
          else g
      | none => g
  | _ => g

/-- No round runs, and every follower has handled all messages of the leader. -/
def BetweenRounds (c : Constants) (L : ℤ) (n : Network) : Prop :=
  (n.servers L).isPaxosRunning = false ∧ ∀ F ∈ c.peers L, inbox L F n.calls = []

instance (c : Constants) (L : ℤ) (n : Network) : Decidable (BetweenRounds c L n) :=
  inferInstanceAs (Decidable (_ ∧ _))

/-- A decision begins between rounds, and then reaches each server of the group once. -/
def MayDecide (c : Constants) (L : ℤ) (n : Network) (id : ℤ) (isCommit : Bool) (request : TpcTid) :
    Option Deciding → Prop
  | none => BetweenRounds c L n
  | some g => g.isCommit = isCommit ∧ g.request = request ∧ id ∉ g.handled

instance (c : Constants) (L : ℤ) (n : Network) (id : ℤ) (isCommit : Bool) (request : TpcTid)
    (g : Option Deciding) : Decidable (MayDecide c L n id isCommit request g) := by
  cases g <;> dsimp only [MayDecide] <;> infer_instance

/-- What may reach a server of the group, in the order of the leader. -/
def InTurn (c : Constants) (L : ℤ) (n : Network) (g : Option Deciding) (i : ℕ) (call : Call) : Prop :=
  match call.request with
  | .transfer request => call.dst = L ∧ g = none ∧ (n.servers L).Led c (.request (.transfer request))
  | .tpcPrepare request =>
      call.dst = L ∧ g = none ∧ (n.servers L).Led c (.request (.tpcPrepare request))
  | .tpcCommit request => MayDecide c L n call.dst true request g
  | .tpcAbort request => MayDecide c L n call.dst false request g
  | .prepare _ | .accept _ | .commit _ =>
      ∀ call' ∈ n.calls.take i, call'.waits L call.dst = false
  | .balance _ | .logs | .sync _ => True
  | .disconnect _ => False

instance (c : Constants) (L : ℤ) (n : Network) (g : Option Deciding) (i : ℕ) (call : Call) :
    Decidable (InTurn c L n g i call) := by
  show Decidable (InTurn c L n g i { call with request := call.request })
  apply Request.decidable (P := fun r => InTurn c L n g i { call with request := r })
  all_goals
    intros
    dsimp only [InTurn]
    infer_instance

/-- One leader proposes, its followers handle its messages in the order they were sent, and every
decision reaches the whole group between two rounds. -/
def OneLeader (c : Constants) (L : ℤ) (p : Network × Option Deciding) : Event → Prop
  | .deliver i _ => ∀ call ∈ p.1.calls[i]?, call.dst ∈ c.group L → InTurn c L p.1 p.2 i call
  | .call _ _ | .complete _ _ _ => True

instance (c : Constants) (L : ℤ) (p : Network × Option Deciding) (e : Event) :
    Decidable (OneLeader c L p e) := by
  cases e <;> dsimp only [OneLeader] <;> infer_instance

/-- The runs of one leader, with the decision under way. -/
abbrev ReachesLed (c : Constants) (L : ℤ) (disk : ℤ → Disk) :
    List Event → Network × Option Deciding → Prop :=
  Runs (withGhost (step c) (deciding c L)) (fun p e => e.working ∧ OneLeader c L p e)
    (init c disk, none)

/-! ### The invariant -/

/-- Of the group, only the leader sends, and only Prepare, Accept and Commit; the replies to its
Prepares have nothing to say about ballots or logs. -/
def Traffic (c : Constants) (L : ℤ) (calls : List Call) : Prop :=
  ∀ call ∈ calls, ∀ x ∈ c.group L, call.src = some x →
    x = L ∧ (∀ q, call.request ≠ .sync q) ∧ ∀ res ∈ call.response, res.Plain

/-- What does not depend on the order of the messages. -/
structure Grounded (c : Constants) (L : ℤ) (n : Network) : Prop where
  routed : Routed c n
  indexed : ∀ x, (n.servers x).wal.Indexed
  phases : (n.servers L).Phases

/-- What holds in the runs of one leader: each follower would be in step with the leader once both
had handled the decision under way and the follower the messages in its inbox. -/
structure Lockstep (c : Constants) (L : ℤ) (n : Network) (g : Option Deciding) : Prop
    extends Grounded c L n where
  traffic : Traffic c L n.calls
  between : ∀ d ∈ g, BetweenRounds c L n
  followers : ∀ F ∈ c.peers L, ∃ d,
    Drained c ((n.servers F).decide c g F) (inbox L F n.calls) d ∧
      Server.Follows c ((n.servers L).decide c g L) d

variable {c : Constants} {L : ℤ} {n n' : Network} {g : Option Deciding} {e : Event}

theorem Grounded.step (h : Grounded c L n) (hstep : Stepped c n e n') (hworking : e.working) :
    Grounded c L n' where
  routed := h.routed.step hstep
  indexed := hstep.server_invariant (I := fun _ s => s.wal.Indexed) h.indexed
    fun id _ _ _ hacts hr => (hr.effect.logEffect (hacts.working hworking) (h.indexed id)).1
  phases := hstep.server_invariant (I := fun id s => id = L → s.Phases)
    (by rintro id rfl; exact h.phases)
    (by rintro id fs input r hacts hr rfl; exact hr.phases h.phases) L rfl

theorem lockstep_init (c : Constants) (L : ℤ) (disk : ℤ → Disk) :
    Lockstep c L (init c disk) none where
  routed := routed_init c disk
  indexed := by
    intro x tid position h
    cases h
  phases := ⟨nofun, nofun, nofun⟩
  traffic := by
    intro call hmem
    cases hmem
  between := by
    intro d hd
    cases hd
  followers := by
    intro F hF
    exact ⟨_, .nil _, Server.follows_init _ _ (Constants.mem_peers.mp hF).2.2⟩

/-- The servers of the group do not change. -/
theorem Lockstep.frame (h : Lockstep c L n g) (hgrounded : Grounded c L n')
    (hservers : ∀ x ∈ c.group L, n'.servers x = n.servers x) (htraffic : Traffic c L n'.calls)
    (hinbox : ∀ F ∈ c.peers L, inbox L F n'.calls = inbox L F n.calls) : Lockstep c L n' g := by
  have hL : n'.servers L = n.servers L := hservers L (Constants.mem_group.mpr (.inl rfl))
  refine ⟨hgrounded, htraffic, ?_, ?_⟩
  · intro d hd
    obtain ⟨hidle, hempty⟩ := h.between d hd
    refine ⟨by rw [hL]; exact hidle, fun F hF => ?_⟩
    rw [hinbox F hF, hempty F hF]
  · intro F hF
    rw [hL, hservers F (Constants.mem_group.mpr (.inr hF)), hinbox F hF]
    exact h.followers F hF

theorem Traffic.next {calls : List Call} {i : ℕ} {b b' : Call} {id : ℤ} {sent : List OutCall}
    (h : Traffic c L calls) (hi : calls[i]? = some b) (hsrc : b'.src = b.src)
    (hrequest : b'.request = b.request)
    (hres : ∀ x ∈ c.group L, b.src = some x → ∀ res ∈ b'.response, res.Plain)
    (hsent : id ∈ c.group L → ∀ o ∈ sent, id = L ∧ ∀ q, o.request ≠ .sync q) :
    Traffic c L (calls.set i b' ++ outCalls id sent) := by
  intro call hmem x hx hcall
  rcases mem_set_append hi hmem with hold | ⟨rfl, hb⟩ | hout
  · exact h call hold x hx hcall
  · rw [hsrc] at hcall
    rw [hrequest]
    obtain ⟨hxL, hsync, -⟩ := h b hb x hx hcall
    exact ⟨hxL, hsync, hres x hx hcall⟩
  · obtain ⟨ho, hid, hnone, -⟩ := mem_outCalls.mp hout
    obtain rfl : id = x := Option.some.inj (hid.symm.trans hcall)
    obtain ⟨rfl, hsync⟩ := hsent hx _ ho
    refine ⟨rfl, hsync, ?_⟩
    intro res hres
    rw [hnone] at hres
    cases hres

/-- A Prepare, Accept or Commit that reaches a server of the group is from the leader to a
follower. -/
theorem Lockstep.of_round (h : Lockstep c L n g) {call : Call} (hmem : call ∈ n.calls)
    (hdst : call.dst ∈ c.group L) (hkind : (∃ q, call.request = .prepare q) ∨
      (∃ q, call.request = .accept q) ∨ ∃ q, call.request = .commit q) :
    call.src = some L ∧ call.dst ∈ c.peers L := by
  have hsent : n.Sent call.src call.dst call.request := ⟨call, hmem, rfl, rfl, rfl⟩
  obtain ⟨p, hsrc, hpeer⟩ : ∃ p, call.src = some p ∧ call.dst ∈ c.peers p := by
    rcases hkind with ⟨q, hq⟩ | ⟨q, hq⟩ | ⟨q, hq⟩ <;> rw [hq] at hsent
    · exact ⟨_, h.routed.prepare hsent⟩
    · exact h.routed.accept hsent
    · exact h.routed.commit hsent
  have hp : p ∈ c.group L := by
    have hsymm := Constants.mem_peers_symm hpeer
    rcases Constants.mem_group.mp hdst with hL | hF
    · rw [hL] at hsymm
      exact Constants.mem_group.mpr (.inr hsymm)
    · by_cases hpL : p = L
      · exact Constants.mem_group.mpr (.inl hpL)
      · obtain ⟨hrange, -, hcluster⟩ := Constants.mem_peers.mp hsymm
        exact Constants.mem_group.mpr (.inr (Constants.mem_peers.mpr ⟨hrange, hpL,
          hcluster.trans (Constants.mem_peers.mp hF).2.2⟩))
  obtain ⟨rfl, -⟩ := h.traffic call hmem p hp hsrc
  exact ⟨hsrc, hpeer⟩

/-! ### The leader and a follower act -/

/-- The leader handles a poll or a reply: what it sends goes to the inboxes of its followers. -/
theorem Lockstep.leads (h : Lockstep c L n none) (hgrounded : Grounded c L n') {fs : FileSystem}
    {input : Input} (hfs : fs.working) (hled : (n.servers L).Led c input) {i : ℕ} {b : Call}
    (hi : n.calls[i]? = some b) (b' : Call) (hsrc : b'.src = b.src)
    (hrequest : b'.request = b.request)
    (hwaits : ∀ F ∈ c.peers L, b'.waits L F = b.waits L F)
    (hres : ∀ x ∈ c.group L, b.src = some x → ∀ res ∈ b'.response, res.Plain)
    (hservers : n'.servers =
      Function.update n.servers L ((n.servers L).react c fs input).server)
    (hcalls : n'.calls = n.calls.set i b' ++ outCalls L ((n.servers L).react c fs input).sent) :
    Lockstep c L n' none := by
  refine ⟨hgrounded, ?_, nofun, ?_⟩
  · rw [hcalls]
    exact h.traffic.next hi hsrc hrequest hres fun _ o ho => ⟨rfl, hled.sent ho⟩
  · intro F hF
    obtain ⟨d, hdrained, hfollows⟩ := h.followers F hF
    have hne : F ≠ L := (Constants.mem_peers.mp hF).2.1
    rw [hcalls, inbox_append, inbox_set hi b' (hwaits F hF) hrequest, hservers,
      Function.update_self, Function.update_of_ne hne]
    rcases Server.Follows.step hfollows hled hfs with ⟨hnil, hnext⟩ | ⟨m, hm, hobeys, hnext⟩
    · refine ⟨d, ?_, hnext⟩
      have hnil : ((n.servers L).react c fs input).sent = [] := hnil
      rw [hnil]
      simpa [outCalls, inbox] using hdrained
    · refine ⟨_, ?_, hnext⟩
      have hm : ((n.servers L).react c fs input).sent = (n.servers L).broadcast m := hm
      have hF' : F ∈ (n.servers L).stubs := by rwa [h.routed.stubs]
      have hnodup : (n.servers L).stubs.Nodup := by
        rw [h.routed.stubs]
        exact c.peers_nodup L
      rw [hm, inbox_broadcast hF' hnodup]
      exact hdrained.snoc hobeys

/-- A follower handles the first message in its inbox. -/
theorem Lockstep.obeys (h : Lockstep c L n g) {i : ℕ} {fs : FileSystem} {call : Call}
    (hgrounded : Grounded c L (n.deliver c i fs call)) (hfs : fs.working)
    (hi : n.calls[i]? = some call) (hF : call.dst ∈ c.peers L)
    (hwaits : call.waits L call.dst = true)
    (hfirst : ∀ call' ∈ n.calls.take i, call'.waits L call.dst = false) :
    Lockstep c L (n.deliver c i fs call) g := by
  have hne : L ≠ call.dst := (Constants.mem_peers.mp hF).2.1.symm
  -- the inbox is not empty, so no decision is under way
  obtain rfl : g = none := by
    cases g with
    | none => rfl
    | some d =>
      have hempty := (h.between d rfl).2 call.dst hF
      rw [inbox_handle hi { call with response := some .empty } hwaits hfirst
        (by simp [Call.waits])] at hempty
      cases hempty
  have hobeys : (n.servers call.dst).Obeys call.request := by
    obtain ⟨d, hdrained, -⟩ := h.followers call.dst hF
    rw [inbox_handle hi { call with response := some .empty } hwaits hfirst
      (by simp [Call.waits])] at hdrained
    cases hdrained with
    | cons hobeys => exact hobeys
  obtain ⟨response, hproceed, hplain⟩ := Server.proceed_of_obeys (c := c) hobeys hfs
  have hservers : (n.deliver c i fs call).servers = Function.update n.servers call.dst
      ((n.servers call.dst).after c call.request) := by
    simp only [deliver, hproceed]
  have hcalls : (n.deliver c i fs call).calls =
      n.calls.set i { call with response := some response } ++ outCalls call.dst [] := by
    simp only [deliver, hproceed]
  refine ⟨hgrounded, ?_, nofun, ?_⟩
  · rw [hcalls]
    refine h.traffic.next hi rfl rfl ?_ nofun
    intro x hx hsrc res hres
    obtain rfl : response = res := Option.some.inj hres
    exact hplain
  · intro F hFmem
    obtain ⟨d, hdrained, hfollows⟩ := h.followers F hFmem
    rw [hcalls, inbox_append, inbox_outCalls_of_ne hne.symm, List.append_nil, hservers,
      Function.update_of_ne hne]
    refine ⟨d, ?_, hfollows⟩
    by_cases hFd : F = call.dst
    · subst hFd
      rw [Function.update_self]
      rw [inbox_handle hi { call with response := some response } hwaits hfirst
        (by simp [Call.waits])] at hdrained
      cases hdrained with
      | cons _ hrest => exact hrest
    · have hother : call.dst ≠ F := fun heq => hFd heq.symm
      rw [Function.update_of_ne hFd,
        inbox_set hi { call with response := some response } (by simp [Call.waits, hother]) rfl]
      exact hdrained

/-! ### A decision reaches the group -/

theorem Grounded.idle (h : Grounded c L n) (hidle : (n.servers L).isPaxosRunning = false) :
    (n.servers L).awaitPrepareDecision = false ∧ (n.servers L).awaitAcceptDecision = false := by
  constructor
  · by_contra hawait
    have := h.phases.prepare (by simpa using hawait)
    rw [hidle] at this
    cases this
  · by_contra hawait
    have := h.phases.accept (by simpa using hawait)
    rw [hidle] at this
    cases this

/-- Between two rounds any decision keeps the followers in step with the leader. -/
theorem Lockstep.begin (h : Lockstep c L n none) (hbetween : BetweenRounds c L n)
    (isCommit : Bool) (request : TpcTid) : Lockstep c L n (some ⟨isCommit, request, ∅⟩) := by
  refine ⟨h.toGrounded, h.traffic, fun _ _ => hbetween, ?_⟩
  intro F hF
  obtain ⟨d, hdrained, hfollows⟩ := h.followers F hF
  rw [hbetween.2 F hF] at hdrained ⊢
  cases hdrained
  have hpos : 0 < (n.servers L).clusterId := by
    rw [h.routed.clusterId, ← (Constants.mem_peers.mp hF).2.2]
    exact c.clusterIdFromServerId_pos (Constants.mem_peers.mp hF).1.1
  refine ⟨_, .nil _, ?_⟩
  exact Server.Follows.decide hfollows hpos (h.idle hbetween.1).2 FileSystem.allOpen_working
    FileSystem.allOpen_working request isCommit

/-- A server of the group handles the decision under way. -/
theorem Lockstep.handle {d : Deciding} (h : Lockstep c L n (some d)) {i : ℕ} {fs : FileSystem}
    {call : Call} (hgrounded : Grounded c L (n.deliver c i fs call)) (hfs : fs.working)
    (hi : n.calls[i]? = some call) (hnew : call.dst ∉ d.handled)
    (hrequest : call.request.decided = some (d.isCommit, d.request)) :
    Lockstep c L (n.deliver c i fs call)
      (some ⟨d.isCommit, d.request, insert call.dst d.handled⟩) := by
  have hproceed : (n.servers call.dst).proceed c fs call.request =
      ⟨(n.servers call.dst).processTpcDecision c .allOpen d.request d.isCommit, some .empty, []⟩ := by
    rw [Request.eq_decision hrequest, Server.proceed_decision,
      Server.processTpcDecision_working hfs (h.indexed call.dst)]
  have hservers : (n.deliver c i fs call).servers = Function.update n.servers call.dst
      ((n.servers call.dst).processTpcDecision c .allOpen d.request d.isCommit) := by
    simp only [deliver, hproceed]
  have hcalls : (n.deliver c i fs call).calls =
      n.calls.set i { call with response := some .empty } ++ outCalls call.dst [] := by
    simp only [deliver, hproceed]
  -- a decision is no message of the leader
  have hsrc : ∀ x ∈ c.group L, call.src ≠ some x := by
    intro x hx hsrc
    obtain ⟨rfl, hsync, -⟩ := h.traffic call (List.mem_of_getElem? hi) x hx hsrc
    rcases h.routed.server x call.dst call.request
      ⟨call, List.mem_of_getElem? hi, hsrc, rfl, rfl⟩ with
      ⟨⟨q, hq⟩, -⟩ | ⟨-, ⟨q, hq, -⟩ | ⟨q, hq⟩ | ⟨q, hq⟩⟩ <;>
      · rw [hq] at hrequest
        cases hrequest
  have hL : call.src ≠ some L := hsrc L (Constants.mem_group.mpr (.inl rfl))
  have hinbox : ∀ F, inbox L F (n.deliver c i fs call).calls = inbox L F n.calls := by
    intro F
    have hwaits : ({ call with response := some .empty } : Call).waits L F = call.waits L F := by
      simp [Call.waits, hL]
    rw [hcalls, inbox_kept hi hwaits rfl (.inl rfl)]
  have hdecide : ∀ x, ((n.deliver c i fs call).servers x).decide c
      (some ⟨d.isCommit, d.request, insert call.dst d.handled⟩) x =
        (n.servers x).decide c (some d) x := by
    intro x
    rw [hservers]
    by_cases hx : x = call.dst
    · subst hx
      simp [Server.decide, hnew]
    · simp [Server.decide, hx]
  obtain ⟨hidle, hempty⟩ := h.between d rfl
  refine ⟨hgrounded, ?_, fun _ _ => ⟨?_, fun F hF => ?_⟩, fun F hF => ?_⟩
  · rw [hcalls]
    exact h.traffic.next hi rfl rfl (fun x hx hcall => absurd hcall (hsrc x hx)) nofun
  · rw [hservers]
    by_cases hx : L = call.dst
    · subst hx
      rw [Function.update_self]
      rcases hconn : (n.servers call.dst).iAmDisconnected with _ | _
      · have heq : (n.servers call.dst).processTpcDecision c .allOpen d.request d.isCommit = _ :=
          Server.processTpcDecision_eq d.request d.isCommit hconn
        rw [heq]
        cases d.isCommit <;> exact hidle
      · rwa [Server.processTpcDecision_disconnected _ _ hconn]
    · rwa [Function.update_of_ne hx]
  · rw [hinbox, hempty F hF]
  · rw [hinbox, hdecide, hdecide]
    exact h.followers F hF

/-- The decision under way ends when the whole group has handled it. -/
theorem Lockstep.conclude {d : Deciding} (h : Lockstep c L n (some d))
    (hall : d.handled = c.group L) : Lockstep c L n none := by
  have hdone : ∀ x ∈ c.group L, (n.servers x).decide c (some d) x = n.servers x := by
    intro x hx
    simp only [Server.decide, hall, hx, if_true]
  refine ⟨h.toGrounded, h.traffic, nofun, fun F hF => ?_⟩
  have hfollows := h.followers F hF
  rwa [hdone F (Constants.mem_group.mpr (.inr hF)),
    hdone L (Constants.mem_group.mpr (.inl rfl))] at hfollows

/-! ### The step and the run -/

theorem deciding_deliver {i : ℕ} {fs : FileSystem} {call : Call} (hi : n.calls[i]? = some call)
    (hnew : call.response = none) (h : call.request.decided = none ∨ call.dst ∉ c.group L) :
    deciding c L n (.deliver i fs) g = g := by
  unfold deciding
  rw [acting_eq_some.mpr (.deliver hi hnew)]
  dsimp only
  rcases h with h | h
  · rw [h]
  · cases call.request.decided with
    | none => rfl
    | some d => exact if_neg h

theorem deciding_complete {i : ℕ} {status : Status} {fs : FileSystem} :
    deciding c L n (.complete i status fs) g = g := by
  unfold deciding
  cases hact : acting n (.complete i status fs) with
  | none => rfl
  | some a =>
    obtain ⟨id, fs', input⟩ := a
    cases acting_eq_some.mp hact
    rfl

/-- A decision that may be handled is handled, and ends when it was the last one. -/
theorem Lockstep.decides (h : Lockstep c L n g) {i : ℕ} {fs : FileSystem} {call : Call}
    (hgrounded : Grounded c L (n.deliver c i fs call)) (hfs : fs.working)
    (hi : n.calls[i]? = some call) (hnew : call.response = none) (hdst : call.dst ∈ c.group L)
    {isCommit : Bool} {request : TpcTid} (hrequest : call.request.decided = some (isCommit, request))
    (hmay : MayDecide c L n call.dst isCommit request g) :
    Lockstep c L (n.deliver c i fs call) (deciding c L n (.deliver i fs) g) := by
  obtain ⟨handled, hhandled, hafter⟩ : ∃ handled, handled = insert call.dst (g.elim ∅ Deciding.handled) ∧
      Lockstep c L (n.deliver c i fs call) (some ⟨isCommit, request, handled⟩) := by
    cases g with
    | none =>
      exact ⟨_, rfl, (h.begin hmay isCommit request).handle hgrounded hfs hi (Finset.notMem_empty _)
        hrequest⟩
    | some d =>
      obtain ⟨rfl, rfl, hd⟩ := hmay
      exact ⟨_, rfl, h.handle hgrounded hfs hi hd hrequest⟩
  have heq : deciding c L n (.deliver i fs) g =
      if handled = c.group L then none else some ⟨isCommit, request, handled⟩ := by
    unfold deciding
    rw [acting_eq_some.mpr (.deliver hi hnew)]
    dsimp only
    rw [hrequest, hhandled]
    exact if_pos hdst
  rw [heq]
  by_cases hall : handled = c.group L
  · rw [if_pos hall]
    exact hafter.conclude hall
  · rw [if_neg hall]
    exact hafter

/-- A request that changes nothing and is no message of the leader. -/
theorem Lockstep.reads (h : Lockstep c L n g) {i : ℕ} {fs : FileSystem} {call : Call}
    (hgrounded : Grounded c L (n.deliver c i fs call)) (hi : n.calls[i]? = some call)
    (response : Response) (hplain : response.Plain)
    (hproceed : (n.servers call.dst).proceed c fs call.request =
      ⟨n.servers call.dst, some response, []⟩)
    (hsrc : call.src ≠ some L) : Lockstep c L (n.deliver c i fs call) g := by
  have hcalls : (n.deliver c i fs call).calls =
      n.calls.set i { call with response := some response } ++ outCalls call.dst [] := by
    simp only [deliver, hproceed]
  refine h.frame hgrounded ?_ ?_ ?_
  · intro x _
    simp only [deliver, hproceed, Function.update_eq_self]
  · rw [hcalls]
    refine h.traffic.next hi rfl rfl ?_ nofun
    intro x _ _ res hres
    obtain rfl : response = res := Option.some.inj hres
    exact hplain
  · intro F _
    have hwaits : ({ call with response := some response } : Call).waits L F = call.waits L F := by
      simp [Call.waits, hsrc]
    rw [hcalls, inbox_kept hi hwaits rfl (.inl rfl)]

/-- The calls of the client, and the calls that a server of another cluster handles, are no messages
of the leader. -/
theorem Lockstep.not_from_leader (h : Lockstep c L n g) {call : Call} (hmem : call ∈ n.calls)
    (hother : call.request.fromClient = true ∨ (∃ q, call.request = .sync q) ∨
      call.dst ∉ c.group L) : call.src ≠ some L := by
  intro hsrc
  obtain ⟨-, hsync, -⟩ := h.traffic call hmem L (Constants.mem_group.mpr (.inl rfl)) hsrc
  rcases h.routed.server L call.dst call.request ⟨call, hmem, hsrc, rfl, rfl⟩ with
    ⟨⟨q, hq⟩, -⟩ | ⟨hpeer, hkind⟩
  · exact hsync q hq
  · rcases hother with hclient | ⟨q, hq⟩ | hdst
    · rcases hkind with ⟨q, hq, -⟩ | ⟨q, hq⟩ | ⟨q, hq⟩ <;>
        · rw [hq] at hclient
          cases hclient
    · exact hsync q hq
    · exact hdst (Constants.mem_group.mpr (.inr hpeer))

/-- A poll that the leader may handle. -/
theorem Lockstep.polls (h : Lockstep c L n none) {i : ℕ} {fs : FileSystem} {call : Call}
    (hgrounded : Grounded c L (n.deliver c i fs call)) (hfs : fs.working)
    (hi : n.calls[i]? = some call) (hdst : call.dst = L)
    (hclient : call.request.fromClient = true)
    (hled : (n.servers L).Led c (.request call.request)) :
    Lockstep c L (n.deliver c i fs call) none := by
  have hsrc := h.not_from_leader (List.mem_of_getElem? hi) (.inl hclient)
  subst hdst
  refine h.leads hgrounded hfs hled hi
    { call with response := ((n.servers call.dst).proceed c fs call.request).response }
    rfl rfl ?_ ?_ rfl rfl
  · intro F _
    simp [Call.waits, hsrc]
  · intro x hx hcall
    obtain ⟨rfl, -⟩ := h.traffic call (List.mem_of_getElem? hi) x hx hcall
    exact absurd hcall hsrc

theorem Lockstep.deliver (h : Lockstep c L n g) {i : ℕ} {fs : FileSystem} {call : Call}
    (hgrounded : Grounded c L (n.deliver c i fs call)) (hfs : fs.working)
    (hi : n.calls[i]? = some call) (hnew : call.response = none)
    (hguard : OneLeader c L (n, g) (.deliver i fs)) :
    Lockstep c L (n.deliver c i fs call) (deciding c L n (.deliver i fs) g) := by
  have hmem := List.mem_of_getElem? hi
  by_cases hdst : call.dst ∈ c.group L
  · have hturn := hguard call hi hdst
    have hround : (∀ call' ∈ n.calls.take i, call'.waits L call.dst = false) →
        ((∃ q, call.request = .prepare q) ∨ (∃ q, call.request = .accept q) ∨
          ∃ q, call.request = .commit q) → Lockstep c L (n.deliver c i fs call) g := by
      intro hfirst hkind
      obtain ⟨hsrc, hF⟩ := h.of_round hmem hdst hkind
      exact h.obeys hgrounded hfs hi hF (by simp [Call.waits, hsrc, hnew]) hfirst
    unfold InTurn at hturn
    cases hq : call.request <;> rw [hq] at hturn
    case transfer request =>
      obtain ⟨hL, rfl, hled⟩ := hturn
      rw [deciding_deliver hi hnew (.inl (by rw [hq]; rfl))]
      exact h.polls hgrounded hfs hi hL (by rw [hq]; rfl) (by rw [hq]; exact hled)
    case tpcPrepare request =>
      obtain ⟨hL, rfl, hled⟩ := hturn
      rw [deciding_deliver hi hnew (.inl (by rw [hq]; rfl))]
      exact h.polls hgrounded hfs hi hL (by rw [hq]; rfl) (by rw [hq]; exact hled)
    case tpcCommit request =>
      exact h.decides hgrounded hfs hi hnew hdst (by rw [hq]; rfl) hturn
    case tpcAbort request =>
      exact h.decides hgrounded hfs hi hnew hdst (by rw [hq]; rfl) hturn
    case prepare request =>
      rw [deciding_deliver hi hnew (.inl (by rw [hq]; rfl))]
      exact hround hturn (.inl ⟨request, hq⟩)
    case accept request =>
      rw [deciding_deliver hi hnew (.inl (by rw [hq]; rfl))]
      exact hround hturn (.inr (.inl ⟨request, hq⟩))
    case commit request =>
      rw [deciding_deliver hi hnew (.inl (by rw [hq]; rfl))]
      exact hround hturn (.inr (.inr ⟨request, hq⟩))
    case balance request =>
      rw [deciding_deliver hi hnew (.inl (by rw [hq]; rfl))]
      exact h.reads hgrounded hi (.balance _) trivial (by rw [hq]; rfl)
        (h.not_from_leader hmem (.inl (by rw [hq]; rfl)))
    case logs =>
      rw [deciding_deliver hi hnew (.inl (by rw [hq]; rfl))]
      exact h.reads hgrounded hi (.logs _) trivial (by rw [hq]; rfl)
        (h.not_from_leader hmem (.inl (by rw [hq]; rfl)))
    case sync request =>
      rw [deciding_deliver hi hnew (.inl (by rw [hq]; rfl))]
      exact h.reads hgrounded hi (.sync _) trivial (by rw [hq]; rfl)
        (h.not_from_leader hmem (.inr (.inl ⟨request, hq⟩)))
    case disconnect request => exact hturn.elim
  · rw [deciding_deliver hi hnew (.inr hdst)]
    have hsrc := h.not_from_leader hmem (.inr (.inr hdst))
    have hL : call.dst ≠ L := fun heq => hdst (Constants.mem_group.mpr (.inl heq))
    refine h.frame hgrounded ?_ ?_ ?_
    · intro x hx
      have hne : x ≠ call.dst := by
        rintro rfl
        exact hdst hx
      exact Function.update_of_ne hne _ _
    · refine h.traffic.next hi rfl rfl ?_ fun hid => absurd hid hdst
      intro x hx hcall
      obtain ⟨rfl, -⟩ := h.traffic call hmem x hx hcall
      exact absurd hcall hsrc
    · intro F _
      apply inbox_kept hi
      · simp [Call.waits, hsrc]
      · rfl
      · exact .inr hL

theorem Lockstep.complete (h : Lockstep c L n g) {i : ℕ} {status : Status} {fs : FileSystem}
    {call : Call} {src : ℤ} (hgrounded : Grounded c L (n.completeAt c i status fs call src))
    (hfs : fs.working) (hi : n.calls[i]? = some call) (hsrc : call.src = some src) :
    Lockstep c L (n.completeAt c i status fs call src) g := by
  have hmem := List.mem_of_getElem? hi
  have hkeeps : ∀ x ∈ c.group L, call.src = some x → ∀ res ∈ call.response, res.Plain := by
    intro x hx hcall
    exact (h.traffic call hmem x hx hcall).2.2
  by_cases hsrcL : src = L
  · subst hsrcL
    obtain ⟨-, hsync, hplain⟩ := h.traffic call hmem src (Constants.mem_group.mpr (.inl rfl)) hsrc
    have hled : (n.servers src).Led c (.reply call.request status (call.response.getD .empty)) := by
      cases hq : call.request with
      | prepare q =>
        intro hok
        cases hres : call.response with
        | none => trivial
        | some res => exact hplain res hres
      | sync q => exact hsync q hq
      | _ => trivial
    cases g with
    | none =>
      exact h.leads hgrounded hfs hled hi { call with completed := true } rfl rfl (fun _ _ => rfl)
        hkeeps rfl rfl
    | some d =>
      -- between two rounds the leader no longer counts replies
      obtain ⟨hprep, hacc⟩ := h.idle (h.between d rfl).1
      have hreact : (n.servers src).react c fs _ = _ :=
        Server.react_reply_idle status (call.response.getD .empty) hsync hprep hacc
      have hserver : ((n.servers src).react c fs
          (.reply call.request status (call.response.getD .empty))).server = n.servers src := by
        rw [hreact]
      have hsent : ((n.servers src).react c fs
          (.reply call.request status (call.response.getD .empty))).sent = [] := by
        rw [hreact]
      have hcalls : (n.completeAt c i status fs call src).calls =
          n.calls.set i { call with completed := true } ++ outCalls src [] := by
        rw [← hsent]
        rfl
      refine h.frame hgrounded ?_ ?_ ?_
      · intro x _
        have hservers : (n.completeAt c i status fs call src).servers =
            Function.update n.servers src ((n.servers src).react c fs
              (.reply call.request status (call.response.getD .empty))).server := rfl
        rw [hservers, hserver, Function.update_eq_self]
      · rw [hcalls]
        exact h.traffic.next hi rfl rfl hkeeps nofun
      · intro F _
        have hwaits : ({ call with completed := true } : Call).waits src F = call.waits src F := rfl
        rw [hcalls, inbox_kept hi hwaits rfl (.inl rfl)]
  · have hout : src ∉ c.group L := by
      intro hx
      exact hsrcL (h.traffic call hmem src hx hsrc).1
    refine h.frame hgrounded ?_ ?_ ?_
    · intro x hx
      have hne : x ≠ src := by
        rintro rfl
        exact hout hx
      exact Function.update_of_ne hne _ _
    · exact h.traffic.next hi rfl rfl hkeeps fun hid => absurd hid hout
    · intro F _
      apply inbox_kept hi
      · rfl
      · rfl
      · exact .inr hsrcL

theorem Lockstep.step (h : Lockstep c L n g) (hstep : step c n e = some n')
    (hworking : e.working) (hguard : OneLeader c L (n, g) e) :
    Lockstep c L n' (deciding c L n e g) := by
  have hgrounded := h.toGrounded.step (step_stepped hstep) hworking
  cases e with
  | call dst request =>
    simp only [Network.step] at hstep
    split_ifs at hstep with hclient
    cases hstep
    refine h.frame hgrounded (fun _ _ => rfl) ?_ fun F _ => ?_
    · intro call hmem x hx hcall
      rcases List.mem_append.mp hmem with hold | hnew
      · exact h.traffic call hold x hx hcall
      · obtain rfl := List.mem_singleton.mp hnew
        cases hcall
    · simp [inbox, Call.waits]
  | deliver i fs =>
    obtain ⟨call, hcall, hstep⟩ := Option.bind_eq_some_iff.mp hstep
    split_ifs at hstep with hnew
    cases hstep
    exact h.deliver hgrounded hworking hcall (by simpa using hnew) hguard
  | complete i status fs =>
    rw [deciding_complete]
    obtain ⟨call, hcall, hstep⟩ := Option.bind_eq_some_iff.mp hstep
    split_ifs at hstep with hopen
    cases hsrc : call.src with
    | none =>
      rw [hsrc] at hstep
      cases hstep
      refine h.frame hgrounded (fun _ _ => rfl) ?_ fun F _ => ?_
      swap
      · exact inbox_set hcall _ (by simp [Call.waits, hsrc]) rfl
      intro call' hmem x hx hcall'
      rcases List.mem_or_eq_of_mem_set hmem with hold | rfl
      · exact h.traffic call' hold x hx hcall'
      · rw [← hsrc] at hcall'
        exact h.traffic call (List.mem_of_getElem? hcall) x hx hcall'
    | some src =>
      rw [hsrc] at hstep
      cases hstep
      exact h.complete hgrounded hworking hcall hsrc

theorem reaches_lockstep {disk : ℤ → Disk} {es : List Event} {p : Network × Option Deciding}
    (h : ReachesLed c L disk es p) : Lockstep c L p.1 p.2 := by
  refine h.invariant (I := fun p => Lockstep c L p.1 p.2) (lockstep_init c L disk) ?_
  rintro p e q hp ⟨hworking, hguard⟩ hstep
  obtain ⟨hstep, hghost⟩ := withGhost_eq_some.mp hstep
  rw [hghost]
  exact hp.step hstep hworking hguard

/-- In every run of one leader whose followers keep the order of its messages and whose file
operations all succeed, the servers of its cluster agree whenever all messages are handled and no
decision is under way. -/
theorem one_leader_agrees (c : Constants) (L : ℤ) (disk : ℤ → Disk) {es : List Event}
    {p : Network × Option Deciding} (h : ReachesLed c L disk es p)
    (hinbox : ∀ F ∈ c.peers L, inbox L F p.1.calls = []) (hdecided : p.2 = none) :
    ∀ x ∈ c.group L, ∀ y ∈ c.group L, (p.1.servers x).Agrees (p.1.servers y) := by
  have hlockstep := reaches_lockstep h
  have hleader : ∀ x ∈ c.group L, (p.1.servers L).Agrees (p.1.servers x) := by
    intro x hx
    rcases Constants.mem_group.mp hx with rfl | hF
    · exact .refl _
    · obtain ⟨d, hdrained, hfollows⟩ := hlockstep.followers x hF
      rw [hinbox x hF, hdecided] at hdrained
      cases hdrained
      rw [hdecided] at hfollows
      exact Server.Follows.agrees hfollows
  intro x hx y hy
  exact (hleader x hx).symm.trans (hleader y hy)

/-- Server 1 runs a transfer and a cross-shard prepare, and the cluster commits the prepare. -/
def roundsAndDecisionRun : List Event :=
  [.call 1 (.transfer ⟨⟨1, 2, 3⟩, 1⟩), .arrives 0, .arrives 1, .arrives 2, .returns 1, .arrives 0,
    .arrives 3, .arrives 4, .returns 3, .arrives 0, .arrives 5, .arrives 6,
    .call 1 (.tpcPrepare ⟨⟨3, 1500, 4⟩, 2⟩), .arrives 7, .arrives 8, .arrives 9, .returns 8,
    .arrives 7, .arrives 10, .arrives 11, .returns 10, .arrives 7, .arrives 12, .arrives 13,
    .call 1 (.tpcCommit ⟨2⟩), .call 2 (.tpcCommit ⟨2⟩), .call 3 (.tpcCommit ⟨2⟩), .arrives 15,
    .arrives 14, .arrives 16]

theorem one_leader_agrees_roundsAndDecision :
    ∃ n, ReachesLed .standard 1 (fun _ => .empty) roundsAndDecisionRun (n, none) ∧
      (n.servers 1).log.length = 3 ∧ (n.servers 3).balances 3 = 6 ∧
      (n.servers 1).Agrees (n.servers 2) ∧ (n.servers 2).Agrees (n.servers 3) := by
  obtain ⟨p, hp, hcheck⟩ := (Option.any_eq_true _ _).mp
    (show (runIf (withGhost (step .standard) (deciding .standard 1)) (OneLeader .standard 1)
      (init .standard fun _ => .empty, none) roundsAndDecisionRun).any
        (fun p => decide ((∀ F ∈ Constants.standard.peers 1, inbox 1 F p.1.calls = []) ∧
          p.2.isNone = true ∧ (p.1.servers 1).log.length = 3 ∧ (p.1.servers 3).balances 3 = 6)) =
        true by decide +kernel)
  obtain ⟨hinbox, hnone, hlength, hbalance⟩ := of_decide_eq_true hcheck
  obtain ⟨n, g⟩ := p
  obtain rfl : g = none := by simpa using hnone
  have hworking : ∀ e ∈ roundsAndDecisionRun, e.working := by
    simp [roundsAndDecisionRun, Event.arrives, Event.returns, Event.working,
      FileSystem.allOpen_working]
  have hled := runs_of_runIf hp
  have hrun : ReachesLed .standard 1 (fun _ => .empty) roundsAndDecisionRun (n, none) :=
    (runs_of_forall hled.run_eq hworking).and hled
  have hagrees := one_leader_agrees .standard 1 _ hrun hinbox rfl
  exact ⟨n, hrun, hlength, hbalance, hagrees 1 (by decide) 2 (by decide),
    hagrees 2 (by decide) 3 (by decide)⟩

/-- The file does not open when the leader commits a transfer that its followers commit. -/
def failedCommitRun : List Event :=
  [.call 1 (.transfer ⟨⟨1, 2, 3⟩, 1⟩), .arrives 0, .arrives 1, .arrives 2, .returns 1, .arrives 0,
    .arrives 3, .arrives 4, .returns 3, .deliver 0 ⟨fun _ => false, .notFound⟩, .arrives 5,
    .arrives 6]

/-- The leader appends the entry that stands for the failed open, and debits nobody. -/
theorem not_agrees_failedCommitRun :
    ∃ n, Runs (withGhost (step .standard) (deciding .standard 1)) (OneLeader .standard 1)
        (init .standard fun _ => .empty, none) failedCommitRun (n, none) ∧
      (∀ F ∈ Constants.standard.peers 1, inbox 1 F n.calls = []) ∧
      n.calls[0]?.map Call.response = some (some (.transfer ⟨true, 1⟩)) ∧
      ¬ (n.servers 1).Agrees (n.servers 2) := by
  obtain ⟨p, hp, hcheck⟩ := (Option.any_eq_true _ _).mp
    (show (runIf (withGhost (step .standard) (deciding .standard 1)) (OneLeader .standard 1)
      (init .standard fun _ => .empty, none) failedCommitRun).any
        (fun p => decide ((∀ F ∈ Constants.standard.peers 1, inbox 1 F p.1.calls = []) ∧
          p.2.isNone = true ∧
          p.1.calls[0]?.map Call.response = some (some (.transfer ⟨true, 1⟩)) ∧
          (p.1.servers 1).balances 1 ≠ (p.1.servers 2).balances 1)) = true by decide +kernel)
  obtain ⟨hinbox, hnone, hanswer, hne⟩ := of_decide_eq_true hcheck
  obtain ⟨n, g⟩ := p
  obtain rfl : g = none := by simpa using hnone
  exact ⟨n, runs_of_runIf hp, hinbox, hanswer, fun hagrees => hne (by rw [hagrees.balances])⟩

end Network
end TpcBank
