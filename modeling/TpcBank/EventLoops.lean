import TpcBank.CallLifecycle
import TpcBank.Coordinator
import TpcBank.Library.Simulation

/-! The whole program as its event loops run it: the loop of `HandleRPCs` of every server with
the objects behind the calls, and the client. A call is handled here in as many turns as its
object needs; the loops refine the system whose calls are handled in one step or polled, and
that system does nothing that they cannot do. -/
namespace TpcBank
open Transition Tagged

/-- The response with which an object has called `Finish`. -/
def CallAction.finished : CallAction → Option Response
  | .started (.finish response) => some response
  | _ => none

def InCalls.reply (l : InCalls) (tag : ℕ) : Option Response :=
  (l.actions tag).findSome? CallAction.finished

/-- A call between two loops. Once it has come, it has the tag of the object that took it. -/
structure Wire where
  src : Option ℤ
  dst : ℤ
  request : Request
  tag : Option ℕ := none
  completed : Bool := false

def Wire.ofCall (call : Call) : Wire := ⟨call.src, call.dst, call.request, none, call.completed⟩

structure EventLoops where
  loops : ℤ → InCalls
  wires : List Wire
  processing : ℤ → Option TpcPrepareRes

/-- One thing that happens: the client starts its calls, a call comes to an object that waits
for it, another operation of an object completes, or a call ends at its caller. -/
inductive LoopEvent
  | client (a : Action)
  | receive (i tag : ℕ) (fs : FileSystem)
  | proceed (id : ℤ) (tag : ℕ) (done : Completion) (fs : FileSystem)
  | complete (i : ℕ) (status : Status) (fs : FileSystem)

/-- The client starts some calls. -/
def Action.ofClient : Action → Prop
  | .deliver _ _ | .complete _ _ _ => False
  | _ => True

namespace EventLoops

def init (c : Constants) (disk : ℤ → Disk) : EventLoops :=
  ⟨fun id => InCalls.handleRPCs (Server.init c id (disk id)), [], fun _ => none⟩

/-- A call as its two ends see it. -/
def call (d : EventLoops) (w : Wire) : Call :=
  ⟨w.src, w.dst, w.request, w.tag.bind (d.loops w.dst).reply, w.completed⟩

/-- The system that the loops implement. -/
def system (d : EventLoops) : System :=
  ⟨⟨fun id => (d.loops id).server, d.wires.map d.call⟩, d.processing⟩

def setWire (d : EventLoops) (i : ℕ) (w : Wire) : EventLoops := { d with wires := d.wires.set i w }

/-- A turn of one loop, which may have started calls. -/
def turn (d : EventLoops) (id : ℤ) (l : InCalls) : EventLoops :=
  { d with
    loops := Function.update d.loops id l
    wires := d.wires ++
      (Network.outCalls id (l.sent.drop (d.loops id).sent.length)).map Wire.ofCall }

/-- The client on its own: what it counts, and the calls that it starts. -/
def client (c : Constants) (d : EventLoops) (a : Action) : Option EventLoops := do
  let σ ← System.step c { d.system with network := { d.system.network with calls := [] } } a
  some { d with wires := d.wires ++ σ.network.calls.map Wire.ofCall, processing := σ.processing }

/-- The client starts some calls. -/
def send (d : EventLoops) (calls : List OutCall) : EventLoops :=
  { d with wires := d.wires ++ calls.map fun o => ⟨none, o.dst, o.request, none, false⟩ }

/-- The body of the loop in `consumeReplies`. -/
def consume (c : Constants) (d : EventLoops) (status : Status) (call : Call) : EventLoops :=
  match call.request with
  | .tpcPrepare _ =>
      let r := System.consumeReply c d.processing status (System.replyOf call status)
      { d.send r.2 with processing := r.1 }
  | _ => d

def step (c : Constants) : Except Fault EventLoops → LoopEvent → Option (Except Fault EventLoops)
  | .error _, _ => none
  | .ok d, .client a => (d.client c a).map .ok
  | .ok d, .receive i tag fs => do
      let w ← d.wires[i]?
      if w.tag.isSome then none else
        let t ← InCalls.step c (.ok (d.loops w.dst)) (.request tag (.request w.request) fs)
        some (t.map ((d.setWire i { w with tag := some tag }).turn w.dst))
  | .ok d, .proceed id tag done fs =>
      match done with
      | .request _ => none
      | done => do
          let t ← InCalls.step c (.ok (d.loops id)) (.request tag done fs)
          some (t.map (d.turn id))
  | .ok d, .complete i status fs => do
      let w ← d.wires[i]?
      if Network.canComplete (d.call w) status then
        let d' := d.setWire i { w with completed := true }
        match w.src with
        | none => some (.ok (d'.consume c status (d.call w)))
        | some id => do
            let t ← InCalls.step c (.ok (d.loops id))
              (.response w.request status ((d.call w).response.getD .empty) fs)
            some (t.map (d'.turn id))
      else none

/-- All sequences of events from the start of the loops. -/
abbrev Reaches (c : Constants) (disk : ℤ → Disk) :
    List LoopEvent → Except Fault EventLoops → Prop :=
  Runs (step c) (fun _ _ => True) (.ok (init c disk))

/-- The call that an object has taken. -/
def taken (d : EventLoops) (id : ℤ) (tag : ℕ) : Option ℕ :=
  d.wires.findIdx? fun w => w.dst = id ∧ w.tag = some tag

/-- What an event is to the system: a run of a handler is a delivery of its call, and the end of
a `Finish` is nothing. -/
def action : Except Fault EventLoops → LoopEvent → Option Action
  | .error _, _ => none
  | .ok _, .client a => some a
  | .ok _, .receive i _ fs => some (.deliver i fs)
  | .ok d, .proceed id tag .alarm fs => (d.taken id tag).map fun i => .deliver i fs
  | .ok _, .proceed _ _ _ _ => none
  | .ok _, .complete i status fs => some (.complete i status fs)

end EventLoops

/-! ### What a turn of one loop does -/

section

variable {r : Request} {n : ℕ} {response : Response}

@[simp] theorem findSome?_received : (received r n).findSome? CallAction.finished = none := by
  induction n with
  | zero => rfl
  | succ n ih =>
    rw [received, List.findSome?_append, ih]
    rfl

theorem Life.received_unique {r' : Request} {x : Option (Option InCall)} {ops : Multiset Operation}
    {acts : List CallAction} (h : Life x ops acts) (hr : .completed (.request r) ∈ acts)
    (hr' : .completed (.request r') ∈ acts) : r = r' := by
  cases h <;> simp [answered] at hr hr' <;> rw [hr, hr']

theorem findSome?_answered (rest : List CallAction) :
    (answered r n response ++ rest).findSome? CallAction.finished = some response := by
  rw [answered_append, List.append_assoc, List.findSome?_append, findSome?_received]
  rfl

end

/-- An object that has not answered its request waits for the alarm. -/
theorem Life.alarm {x : Option (Option InCall)} {ops : Multiset Operation} {acts : List CallAction}
    (h : Life x ops acts) (hr : .completed (.request r) ∈ acts)
    (hopen : acts.findSome? CallAction.finished = none) : ops = {.alarm} := by
  cases h with
  | retrying => rfl
  | unallocated => simp at hr
  | waiting => simp at hr
  | finishing o n response =>
    rw [← List.append_nil (answered _ _ _), findSome?_answered] at hopen
    cases hopen
  | deleted r n response =>
    rw [findSome?_answered] at hopen
    cases hopen

namespace InCalls

variable {c : Constants} {fs : FileSystem} {l l' : InCalls} {tag i : ℕ} {o : InCall} {n : ℕ}
  {r : Request} {done : Completion} {type : RequestTypes}

/-- An object has received a request. -/
def Took (l : InCalls) (tag : ℕ) (r : Request) : Prop := .completed (.request r) ∈ l.actions tag

/-- Nothing changes for the call of an object. -/
structure Kept (l l' : InCalls) (i : ℕ) : Prop where
  took : ∀ r, l'.Took i r ↔ l.Took i r
  reply : l'.reply i = l.reply i

/-- The handler runs for the call of an object. -/
structure Ran (c : Constants) (fs : FileSystem) (l : InCalls) (tag : ℕ) (r : Request)
    (l' : InCalls) : Prop where
  server : l'.server = (l.server.proceed c fs r).server
  sent : l'.sent = l.sent ++ (l.server.proceed c fs r).sent
  pending : l.reply tag = none
  took : ∀ r', l'.Took tag r' ↔ r' = r
  reply : l'.reply tag = (l.server.proceed c fs r).response
  others : ∀ i, i ≠ tag → Kept l l' i

inductive Turned (c : Constants) (fs : FileSystem) (l : InCalls) (tag : ℕ) (l' : InCalls) :
    Completion → Prop
  | received (r : Request) (hnew : ∀ r', ¬ l.Took tag r') (hran : Ran c fs l tag r l') :
      Turned c fs l tag l' (.request r)
  | retried (r : Request) (hold : l.Took tag r) (hran : Ran c fs l tag r l') :
      Turned c fs l tag l' .alarm
  | finished (response : Response) (hserver : l'.server = l.server) (hsent : l'.sent = l.sent)
      (hkept : ∀ i, Kept l l' i) : Turned c fs l tag l' (.finish response)

theorem Kept.refl (l : InCalls) (i : ℕ) : Kept l l i := ⟨fun _ => Iff.rfl, rfl⟩

theorem Kept.trans {l'' : InCalls} (h : Kept l l' i) (h' : Kept l' l'' i) : Kept l l'' i :=
  ⟨fun r => (h'.took r).trans (h.took r), h'.reply.trans h.reply⟩

theorem SameAt.kept (h : SameAt l l' i) : Kept l l' i := by
  constructor
  · intro r
    unfold Took
    rw [h.actions]
  · unfold reply
    rw [h.actions]

theorem newInCall_kept (h : l.LivesAt l.objects.length) : Kept l (l.newInCall type) i := by
  by_cases hi : i = l.objects.length
  · subst hi
    have hacts : l.actions l.objects.length = [] := by
      unfold LivesAt at h
      rw [List.getElem?_eq_none le_rfl] at h
      generalize l.operations _ = ops, l.actions _ = acts at h ⊢
      cases h
      rfl
    have hnew : (l.newInCall type).actions l.objects.length = [.started (.request type)] := by
      rw [newInCall_eq, actions, listOf_append, ← actions, hacts]
      simp [listOf_cons]
    constructor
    · simp [Took, hacts, hnew]
    · rw [reply, reply, hacts, hnew]
      rfl
  · exact (newInCall_sameAt hi).kept

theorem foldl_newInCall_kept (types : List RequestTypes) (h : ∀ i, l.LivesAt i) :
    Kept l (types.foldl newInCall l) i := by
  induction types generalizing l with
  | nil => exact .refl l i
  | cons type types ih => exact (newInCall_kept (h _)).trans (ih (newInCall_lives h))

theorem not_took_handleRPCs {server : Server} : ¬ (handleRPCs server).Took tag r := by
  rw [handleRPCs, (foldl_newInCall_kept (l := { server }) listened fun i => .unallocated).took]
  exact List.not_mem_nil

theorem Handling.ran (h : l'.Handling tag o n) (hserver : l'.server = l.server)
    (hsent : l'.sent = l.sent) (hreply : l.reply tag = none) (hkept : ∀ i, i ≠ tag → Kept l l' i) :
    Ran c fs l tag o.request (l'.serve c fs tag o) := by
  obtain ⟨-, -, hacts⟩ := serve_self c fs o (List.getElem?_eq_some_iff.mp h.object).1
  rw [h.actions, hserver] at hacts
  refine ⟨?_, ?_, hreply, ?_, ?_, fun i hi => (hkept i hi).trans (serve_sameAt hi).kept⟩
  · rw [serve_eq, hserver]
  · rw [serve_eq, hserver, hsent]
  · intro r'
    simp [Took, hacts]
  · rw [reply, hacts, List.findSome?_append, findSome?_received]
    cases (l.server.proceed c fs o.request).response <;> rfl

theorem Living.turned (h : Living l) (hmem : (tag, done.operation) ∈ l.pending)
    (hproceed : (l.complete tag done).proceed c fs tag = .ok l') : Turned c fs l tag l' done := by
  have hlife := h.lives tag
  have hsame : ∀ i, i ≠ tag → SameAt l (l.complete tag done) i := fun i => complete_sameAt hmem
  rw [← mem_bagOf, ← operations] at hmem
  unfold LivesAt at hlife
  generalize hobject : l.objects[tag]? = x, hops : l.operations tag = ops,
    hacts : l.actions tag = acts at hlife
  rw [hops] at hmem
  cases hlife with
  | unallocated => cases hmem
  | deleted => cases hmem
  | waiting o hstatus =>
    have hdone := Multiset.mem_singleton.mp hmem
    obtain ⟨hobject', hops', hacts'⟩ := complete_self hobject (hdone ▸ hops)
    cases done with
    | request r =>
      have htype : r.type = o.type := Operation.request.inj hdone
      have hl : (l.complete tag (.request r)).Handling tag { o with request := r } 0 :=
        ⟨hobject', hops', by rw [hacts', hacts, ← htype]; rfl, .inl rfl⟩
      rw [proceed_process hobject' hstatus] at hproceed
      obtain rfl := Except.ok.inj hproceed
      have hlt : tag < (l.complete tag (.request r)).objects.length :=
        (List.getElem?_eq_some_iff.mp hobject').1
      have hlast : (l.complete tag (.request r)).LivesAt (l.complete tag (.request r)).objects.length :=
        (hsame _ hlt.ne').livesAt (h.lives _)
      refine .received r (by simp [Took, hacts]) ?_
      refine ((newInCall_sameAt hlt.ne).handling hl).ran ?_ ?_ ?_ ?_
      · rw [newInCall_eq]
        rfl
      · rw [newInCall_eq]
        rfl
      · rw [reply, hacts]
        rfl
      · exact fun i hi => (hsame i hi).kept.trans (newInCall_kept hlast)
    | _ => cases hdone
  | retrying o n hstatus hpaxos =>
    have hdone := Multiset.mem_singleton.mp hmem
    obtain ⟨hobject', hops', hacts'⟩ := complete_self hobject (hdone ▸ hops)
    cases done with
    | alarm =>
      have hl : (l.complete tag .alarm).Handling tag o (n + 1) :=
        ⟨hobject', hops', by rw [hacts', hacts, List.append_assoc]; rfl, .inr hpaxos⟩
      rw [proceed_retry hobject' hstatus] at hproceed
      obtain rfl := Except.ok.inj hproceed
      refine .retried o.request (by simp [Took, hacts]) (hl.ran rfl rfl ?_ ?_)
      · rw [reply, hacts, List.findSome?_append, findSome?_received]
        rfl
      · exact fun i hi => (hsame i hi).kept
    | _ => cases hdone
  | finishing o n response hstatus hn =>
    have hdone := Multiset.mem_singleton.mp hmem
    obtain ⟨hobject', hops', hacts'⟩ := complete_self hobject (hdone ▸ hops)
    cases done with
    | finish response' =>
      obtain rfl := Operation.finish.inj hdone
      rw [proceed_finish hobject' hstatus] at hproceed
      obtain rfl := Except.ok.inj hproceed
      refine .finished response' rfl rfl fun i => ?_
      by_cases hi : i = tag
      · subst hi
        obtain ⟨-, -, hacts''⟩ := delete_self (List.getElem?_eq_some_iff.mp hobject').1
        rw [hacts', List.append_assoc, hacts] at hacts''
        constructor
        · simp [Took, hacts'', hacts]
        · rw [reply, reply, hacts'', hacts, findSome?_answered]
          have hfinished : (answered o.request n response' ++ []).findSome? CallAction.finished =
              some response' := findSome?_answered []
          rw [List.append_nil] at hfinished
          exact hfinished.symm
      · exact (hsame i hi).kept.trans (delete_sameAt hi).kept
    | _ => cases hdone

/-- A turn of the loop in which a call of the server ends. -/
def reacted (l : InCalls) (r : Server × List OutCall) : InCalls :=
  { l with server := r.1, sent := l.sent ++ r.2 }

theorem step_response (l : InCalls) (request : Request) (status : Status) (response : Response) :
    InCalls.step c (.ok l) (.response request status response fs) =
      some (.ok (l.reacted (l.server.handleRPCResponse c fs request status response))) := rfl

theorem reacted_kept (l : InCalls) (p : Server × List OutCall) (i : ℕ) : Kept l (l.reacted p) i :=
  ⟨fun _ => Iff.rfl, rfl⟩

theorem Living.reacted (h : Living l) (p : Server × List OutCall) : Living (l.reacted p) :=
  ⟨h.lives, h.listening⟩

/-- A turn of the loop in which an operation of an object completes. -/
theorem Living.step_request (h : Living l) {t : Except Fault InCalls}
    (hstep : InCalls.step c (.ok l) (.request tag done fs) = some t) :
    ∃ l', t = .ok l' ∧ Living l' ∧ Turned c fs l tag l' done := by
  obtain ⟨l', rfl, hl'⟩ := h.step hstep
  obtain ⟨hmem, hproceed⟩ := Option.ite_none_right_eq_some.mp hstep
  exact ⟨l', rfl, hl', h.turned hmem (Option.some.inj hproceed)⟩

end InCalls

namespace EventLoops

variable {c : Constants} {fs : FileSystem} {d : EventLoops} {w : Wire} {i tag : ℕ} {id : ℤ}
  {l : InCalls} {r : Request} {sent : List OutCall}

@[simp] theorem setWire_loops : (d.setWire i w).loops = d.loops := rfl

@[simp] theorem turn_loops : (d.turn id l).loops = Function.update d.loops id l := rfl

/-- The object that has taken a call, with the request of the call. -/
def held (d : EventLoops) (i : ℕ) : Option (ℤ × ℕ × Request) :=
  d.wires[i]?.bind fun w => w.tag.map fun tag => (w.dst, tag, w.request)

theorem held_eq (hw : d.wires[i]? = some w) :
    d.held i = w.tag.map fun tag => (w.dst, tag, w.request) := by
  rw [held, hw, Option.bind_some]

theorem held_append {d' : EventLoops} {more : List Wire} (hwires : d'.wires = d.wires ++ more)
    (hmore : ∀ w ∈ more, w.tag = none) : d'.held = d.held := by
  funext j
  unfold held
  rw [hwires, List.getElem?_append]
  split_ifs with hj
  · rfl
  · rw [List.getElem?_eq_none (not_lt.mp hj), Option.bind_none]
    cases hw : more[j - d.wires.length]? with
    | none => rfl
    | some w => simp [hmore w (List.mem_of_getElem? hw)]

@[simp] theorem held_turn : (d.turn id l).held = d.held := by
  refine held_append rfl fun w hw => ?_
  obtain ⟨call, -, rfl⟩ := List.mem_map.mp hw
  rfl

theorem held_setWire (w' : Wire) (hw : d.wires[i]? = some w) : (d.setWire i w').held =
    Function.update d.held i (w'.tag.map fun tag => (w'.dst, tag, w'.request)) := by
  funext j
  by_cases hj : j = i
  · subst hj
    have hlt := (List.getElem?_eq_some_iff.mp hw).1
    rw [Function.update_self, held_eq (List.getElem?_set_self hlt)]
  · rw [Function.update_of_ne hj, held, held, setWire, List.getElem?_set_ne (Ne.symm hj)]

/-! ### What the system sees of a turn -/

theorem map_call_ofCall {calls : List Call} (h : ∀ call ∈ calls, call.response = none) :
    (calls.map Wire.ofCall).map d.call = calls := by
  rw [List.map_map]
  refine (List.map_congr_left fun b hb => ?_).trans (List.map_id calls)
  have hresponse := h b hb
  cases b
  subst hresponse
  rfl

theorem outCalls_unanswered {call : Call} (h : call ∈ Network.outCalls id sent) :
    call.response = none := by
  obtain ⟨o, -, rfl⟩ := List.mem_map.mp h
  rfl

theorem system_turn (hsent : l.sent = (d.loops id).sent ++ sent) : (d.turn id l).system =
    ⟨⟨Function.update d.system.network.servers id l.server,
      d.wires.map (d.turn id l).call ++ Network.outCalls id sent⟩, d.processing⟩ := by
  have hservers : (fun x => ((d.turn id l).loops x).server) =
      Function.update d.system.network.servers id l.server := by
    funext x
    by_cases hx : x = id
    · subst hx
      simp [turn]
    · simp [turn, system, hx]
  have hcalls : (d.turn id l).wires.map (d.turn id l).call =
      d.wires.map (d.turn id l).call ++ Network.outCalls id sent := by
    have hout : ((Network.outCalls id sent).map Wire.ofCall).map (d.turn id l).call =
        Network.outCalls id sent := map_call_ofCall fun call => outCalls_unanswered
    rw [← hout, ← List.map_append, turn, hsent, List.drop_left]
  rw [system, hservers, hcalls]
  rfl

/-- A call looks the same when the reply of its object is the same. -/
theorem call_turn (h : ∀ tag, w.dst = id → w.tag = some tag → l.reply tag = (d.loops id).reply tag) :
    (d.turn id l).call w = d.call w := by
  unfold call turn
  by_cases hdst : w.dst = id
  · cases htag : w.tag with
    | none => rfl
    | some tag => simp [hdst, h tag hdst htag]
  · simp [Function.update_of_ne hdst]

/-- A run of the handler for a call is a delivery of the call. -/
theorem system_turn_ran (hran : InCalls.Ran c fs (d.loops w.dst) tag w.request l)
    (hothers : ∀ j r, j ≠ i → d.held j ≠ some (w.dst, tag, r)) :
    ((d.setWire i { w with tag := some tag }).turn w.dst l).system =
      { d.system with network := d.system.network.deliver c i fs (d.call w) } := by
  have hcalls : ∀ j w', d.wires[j]? = some w' → j ≠ i →
      ((d.setWire i { w with tag := some tag }).turn w.dst l).call w' = d.call w' := by
    intro j w' hw' hne
    refine (call_turn fun tag' hdst htag => ?_).trans rfl
    have htag' : tag' ≠ tag := by
      rintro rfl
      exact hothers j w'.request hne (by rw [held_eq hw', htag, hdst]; rfl)
    exact (hran.others tag' htag').reply
  have hcall : ((d.setWire i { w with tag := some tag }).turn w.dst l).call
      { w with tag := some tag } = { d.call w with
        response := ((d.loops w.dst).server.proceed c fs w.request).response } := by
    simp [call, turn, hran.reply]
  have hwires : (d.setWire i { w with tag := some tag }).wires.map
      ((d.setWire i { w with tag := some tag }).turn w.dst l).call =
      (d.wires.map d.call).set i { d.call w with
        response := ((d.loops w.dst).server.proceed c fs w.request).response } := by
    rw [setWire, List.map_set, ← setWire, hcall]
    refine List.ext_getElem? fun j => ?_
    by_cases hj : i = j
    · subst hj
      simp only [List.getElem?_set, List.length_map, if_true]
    · rw [List.getElem?_set_ne hj, List.getElem?_set_ne hj, List.getElem?_map, List.getElem?_map]
      cases hw' : d.wires[j]? with
      | none => rfl
      | some w' => exact congrArg some (hcalls j w' hw' (Ne.symm hj))
  rw [system_turn (d := d.setWire i _) hran.sent, hwires, hran.server]
  rfl

/-! ### The invariant -/

/-- Every loop keeps to the lifecycle of its objects, and the objects that have received a
request are those that hold a call, each its own. -/
structure Wired (d : EventLoops) : Prop where
  living : ∀ id, (d.loops id).Living
  took : ∀ {i id tag r}, d.held i = some (id, tag, r) → (d.loops id).Took tag r
  unique : ∀ {i j id tag r r'}, d.held i = some (id, tag, r) → d.held j = some (id, tag, r') → i = j
  carried : ∀ {id tag r}, (d.loops id).Took tag r → ∃ i r', d.held i = some (id, tag, r')

theorem wired_init (c : Constants) (disk : ℤ → Disk) : Wired (init c disk) where
  living := fun id => .handleRPCs _
  took := by
    intro i id tag r h
    cases h
  unique := by
    intro i j id tag r r' h
    cases h
  carried := by
    intro id tag r h
    exact absurd h InCalls.not_took_handleRPCs

/-- The handler has run for one call, which its object may have held before. -/
theorem Wired.ran (h : Wired d) (hl : l.Living) (hw : d.wires[i]? = some w)
    (hran : InCalls.Ran c fs (d.loops w.dst) tag w.request l) (htag : ∀ tag' ∈ w.tag, tag' = tag)
    (hothers : ∀ j r, j ≠ i → d.held j ≠ some (w.dst, tag, r)) :
    Wired ((d.setWire i { w with tag := some tag }).turn w.dst l) := by
  have hheld : ((d.setWire i { w with tag := some tag }).turn w.dst l).held =
      Function.update d.held i (some (w.dst, tag, w.request)) := by
    rw [held_turn, held_setWire _ hw]
    rfl
  constructor
  · intro id
    by_cases hid : id = w.dst
    · subst hid
      simpa using hl
    · simpa [hid] using h.living id
  · intro j id tag' r hj
    rw [hheld] at hj
    by_cases hji : j = i
    · subst hji
      rw [Function.update_self] at hj
      cases hj
      simpa using (hran.took _).mpr rfl
    · rw [Function.update_of_ne hji] at hj
      have htook := h.took hj
      by_cases hid : id = w.dst
      · subst hid
        have hne : tag' ≠ tag := by
          rintro rfl
          exact hothers j r hji hj
        simpa using ((hran.others tag' hne).took r).mpr htook
      · simpa [hid] using htook
  · intro j k id tag' r r' hj hk
    rw [hheld] at hj hk
    by_cases hji : j = i <;> by_cases hki : k = i
    · rw [hji, hki]
    · subst hji
      rw [Function.update_self] at hj
      cases hj
      rw [Function.update_of_ne hki] at hk
      exact absurd hk (hothers k r' hki)
    · subst hki
      rw [Function.update_self] at hk
      cases hk
      rw [Function.update_of_ne hji] at hj
      exact absurd hj (hothers j r hji)
    · rw [Function.update_of_ne hji] at hj
      rw [Function.update_of_ne hki] at hk
      exact h.unique hj hk
  · intro id tag' r htook
    rw [hheld]
    by_cases hself : id = w.dst ∧ tag' = tag
    · obtain ⟨rfl, rfl⟩ := hself
      exact ⟨i, w.request, Function.update_self _ _ _⟩
    · have hold : (d.loops id).Took tag' r := by
        by_cases hid : id = w.dst
        · subst hid
          have hne : tag' ≠ tag := fun heq => hself ⟨rfl, heq⟩
          have htook : l.Took tag' r := by simpa using htook
          exact ((hran.others tag' hne).took r).mp htook
        · simpa [hid] using htook
      obtain ⟨j, r', hj⟩ := h.carried hold
      have hji : j ≠ i := by
        rintro rfl
        rw [held_eq hw] at hj
        obtain ⟨tag'', htag'', heq⟩ := Option.map_eq_some_iff.mp hj
        cases heq
        exact hself ⟨rfl, htag _ htag''⟩
      exact ⟨j, r', (Function.update_of_ne hji _ _).trans hj⟩

/-- Nothing changes for the objects and the calls that they hold. -/
theorem Wired.kept (h : Wired d) {d' : EventLoops} (hheld : d'.held = d.held)
    (hliving : ∀ id, (d'.loops id).Living)
    (hkept : ∀ id tag, InCalls.Kept (d.loops id) (d'.loops id) tag) : Wired d' where
  living := hliving
  took := fun hj => ((hkept _ _).took _).mpr (h.took (by rwa [hheld] at hj))
  unique := fun hj hk => h.unique (by rwa [hheld] at hj) (by rwa [hheld] at hk)
  carried := by
    intro id tag r htook
    rw [hheld]
    exact h.carried (((hkept id tag).took r).mp htook)

/-! ### The client -/

/-- The calls that the client starts do not depend on the calls that there are. -/
theorem step_client {a : Action} (ha : a.ofClient) (servers : ℤ → Server) (calls : List Call)
    (processing : ℤ → Option TpcPrepareRes) : System.step c ⟨⟨servers, calls⟩, processing⟩ a =
      (System.step c ⟨⟨servers, []⟩, processing⟩ a).map fun σ =>
        ⟨⟨servers, calls ++ σ.network.calls⟩, σ.processing⟩ := by
  cases a with
  | processTransaction t leaders tid =>
    simp only [System.step, System.processTransaction]
    cases System.leaderOf leaders (c.getClusterIdFromClientId t.sender) with
    | none => rfl
    | some sender =>
      cases System.leaderOf leaders (c.getClusterIdFromClientId t.receiver) with
      | none => simp
      | some receiver =>
        simp only [Option.bind_eq_bind, Option.bind_some]
        cases c.serverIds.lookup sender with
        | none => rfl
        | some senderLeader =>
          cases c.serverIds.lookup receiver with
          | none => rfl
          | some receiverLeader =>
            simp only [Option.bind_some]
            split_ifs <;> rfl
  | deliver => exact ha.elim
  | complete => exact ha.elim
  | _ => rfl

theorem system_send (d : EventLoops) (calls : List OutCall) :
    (d.send calls).system = { d.system with network := System.send d.system.network calls } := by
  simp [send, system, call, System.send, Function.comp_def]

theorem held_send (d : EventLoops) (calls : List OutCall) : (d.send calls).held = d.held := by
  refine held_append rfl fun w hw => ?_
  obtain ⟨o, -, rfl⟩ := List.mem_map.mp hw
  rfl

/-- The calls of an action of the client are appended to all others. -/
theorem client_eq {a : Action} {d' : EventLoops} (h : d.client c a = some d') :
    ∃ calls processing, d' = { d.send calls with processing } ∧
      System.step c d.system a = some ⟨System.send d.system.network calls, processing⟩ := by
  obtain ⟨σ, hσ, h⟩ := Option.bind_eq_some_iff.mp h
  have ha : a.ofClient := by
    cases a with
    | deliver => cases hσ
    | complete => cases hσ
    | _ => trivial
  obtain ⟨calls, hcalls⟩ : ∃ calls : List OutCall,
      σ.network.calls = calls.map fun o => ⟨none, o.dst, o.request, none, false⟩ := by
    cases System.step_stepped hσ with
    | intra => exact ⟨_, rfl⟩
    | cross => exact ⟨_, rfl⟩
    | asked => exact ⟨_, rfl⟩
    | _ => exact ha.elim
  refine ⟨calls, σ.processing, ?_, ?_⟩
  · cases h
    rw [hcalls, List.map_map]
    rfl
  · have hstep := step_client (c := c) ha d.system.network.servers d.system.network.calls d.processing
    refine hstep.trans ?_
    rw [show System.step c ⟨⟨d.system.network.servers, []⟩, d.processing⟩ a = some σ from hσ]
    rw [Option.map_some, hcalls]
    rfl

/-! ### The refinement -/

theorem Wired.send (h : Wired d) (calls : List OutCall) (processing : ℤ → Option TpcPrepareRes) :
    Wired { d.send calls with processing } :=
  h.kept (held_send d calls) h.living fun _ _ => .refl _ _

theorem held_eq_some : d.held i = some (id, tag, r) ↔
    ∃ w, d.wires[i]? = some w ∧ w.dst = id ∧ w.tag = some tag ∧ w.request = r := by
  unfold held
  cases hw : d.wires[i]? with
  | none => simp
  | some w => simp [and_left_comm]

theorem Wired.taken_eq (h : Wired d) (hheld : d.held i = some (id, tag, r)) :
    d.taken id tag = some i := by
  obtain ⟨w, hw, rfl, htag, rfl⟩ := held_eq_some.mp hheld
  obtain ⟨hlt, rfl⟩ := List.getElem?_eq_some_iff.mp hw
  refine List.findIdx?_eq_some_iff_getElem.mpr ⟨hlt, by simp [htag], fun j hj hmem => ?_⟩
  obtain ⟨hdst, htag'⟩ := of_decide_eq_true hmem
  have hheld' := held_eq_some.mpr ⟨_, List.getElem?_eq_getElem (hj.trans hlt), hdst, htag', rfl⟩
  exact hj.ne (h.unique hheld' hheld)

/-- The call behind an object that has received a request. -/
theorem Wired.exists_held (h : Wired d) (htook : (d.loops id).Took tag r) :
    ∃ i, d.held i = some (id, tag, r) := by
  obtain ⟨i, r', hheld⟩ := h.carried htook
  obtain rfl := ((h.living id).lives tag).received_unique htook (h.took hheld)
  exact ⟨i, hheld⟩

/-- The handler runs for a call: the system delivers the call. -/
theorem Wired.delivered (h : Wired d) (hl : l.Living) (hw : d.wires[i]? = some w)
    (hran : InCalls.Ran c fs (d.loops w.dst) tag w.request l) (htag : ∀ tag' ∈ w.tag, tag' = tag)
    (hothers : ∀ j r, j ≠ i → d.held j ≠ some (w.dst, tag, r)) :
    Wired ((d.setWire i { w with tag := some tag }).turn w.dst l) ∧
      System.step c d.system (.deliver i fs) =
        some ((d.setWire i { w with tag := some tag }).turn w.dst l).system := by
  refine ⟨h.ran hl hw hran htag hothers, ?_⟩
  have hcall : d.system.network.calls[i]? = some (d.call w) := by
    rw [system, List.getElem?_map, hw, Option.map_some]
  have hresponse : (d.call w).response = none := by
    unfold call
    cases hheld : w.tag with
    | none => rfl
    | some tag' =>
      rw [htag tag' hheld]
      exact hran.pending
  simp [System.step, Network.step, hcall, hresponse, system_turn_ran hran hothers]

theorem setWire_self (hw : d.wires[i]? = some w) : d.setWire i w = d := by
  obtain ⟨hlt, rfl⟩ := List.getElem?_eq_some_iff.mp hw
  rw [setWire, List.set_getElem_self]

theorem Wired.received (h : Wired d) (hl : l.Living) (hw : d.wires[i]? = some w)
    (hnone : w.tag = none)
    (hturn : InCalls.Turned c fs (d.loops w.dst) tag l (.request w.request)) :
    Wired ((d.setWire i { w with tag := some tag }).turn w.dst l) ∧
      System.step c d.system (.deliver i fs) =
        some ((d.setWire i { w with tag := some tag }).turn w.dst l).system := by
  cases hturn with
  | received _ hnew hran =>
    refine h.delivered hl hw hran (by simp [hnone]) fun j r _ hheld => ?_
    exact hnew r (h.took hheld)

theorem Wired.retried (h : Wired d) (hl : l.Living)
    (hturn : InCalls.Turned c fs (d.loops id) tag l .alarm) :
    Wired (d.turn id l) ∧ ∃ i, d.taken id tag = some i ∧
      System.step c d.system (.deliver i fs) = some (d.turn id l).system := by
  cases hturn with
  | retried r hold hran =>
    obtain ⟨i, hheld⟩ := h.exists_held hold
    obtain ⟨w, hw, rfl, htag, rfl⟩ := held_eq_some.mp hheld
    have hself : d.setWire i { w with tag := some tag } = d := by
      rw [← htag]
      exact setWire_self hw
    have hdelivered := h.delivered hl hw hran (by simp [htag]) fun j r hj hheld' =>
      hj (h.unique hheld' hheld)
    rw [hself] at hdelivered
    exact ⟨hdelivered.1, i, h.taken_eq hheld, hdelivered.2⟩

/-- A turn that no call takes part in. -/
theorem Wired.turn_kept (h : Wired d) (hl : l.Living)
    (hkept : ∀ tag, InCalls.Kept (d.loops id) l tag) : Wired (d.turn id l) := by
  refine h.kept held_turn (fun x => ?_) fun x tag => ?_
  · by_cases hx : x = id
    · subst hx
      simpa using hl
    · simpa [hx] using h.living x
  · by_cases hx : x = id
    · subst hx
      simpa using hkept tag
    · simpa [hx] using InCalls.Kept.refl _ _

theorem system_turn_kept (hkept : ∀ tag, InCalls.Kept (d.loops id) l tag)
    (hsent : l.sent = (d.loops id).sent ++ sent) : (d.turn id l).system =
      ⟨⟨Function.update d.system.network.servers id l.server,
        d.system.network.calls ++ Network.outCalls id sent⟩, d.processing⟩ := by
  have hcall : (d.turn id l).call = d.call :=
    funext fun w => call_turn fun tag _ _ => (hkept tag).reply
  rw [system_turn hsent, hcall]
  rfl

/-- The end of a `Finish` is nothing to the system. -/
theorem Wired.finished (h : Wired d) (hl : l.Living) {response : Response}
    (hturn : InCalls.Turned c fs (d.loops id) tag l (.finish response)) :
    Wired (d.turn id l) ∧ (d.turn id l).system = d.system := by
  cases hturn with
  | finished _ hserver hsent hkept =>
    refine ⟨h.turn_kept hl hkept, ?_⟩
    have hturned := system_turn_kept hkept (hsent.trans (List.append_nil _).symm)
    rw [hturned, hserver]
    have hsame : Function.update d.system.network.servers id (d.loops id).server =
        d.system.network.servers := Function.update_eq_self id _
    rw [hsame, Network.outCalls, List.map_nil, List.append_nil]
    rfl

theorem held_hangUp (hw : d.wires[i]? = some w) :
    (d.setWire i { w with completed := true }).held = d.held := by
  rw [held_setWire _ hw, ← held_eq hw, Function.update_eq_self]

theorem system_hangUp : (d.setWire i { w with completed := true }).system =
    ⟨⟨d.system.network.servers, d.system.network.calls.set i { d.call w with completed := true }⟩,
      d.processing⟩ := by
  unfold system setWire
  rw [List.map_set]
  rfl

theorem Wired.hangUp (h : Wired d) (hw : d.wires[i]? = some w) :
    Wired (d.setWire i { w with completed := true }) :=
  h.kept (held_hangUp hw) h.living fun _ _ => .refl _ _

theorem Wired.consume (h : Wired d) (c : Constants) (status : Status) (b : Call) :
    Wired (d.consume c status b) := by
  unfold EventLoops.consume
  split
  · exact h.send _ _
  · exact h

theorem system_consume (status : Status) (b : Call) {request : TransferReq}
    (hrequest : b.request = .tpcPrepare request) : (d.consume c status b).system =
      ⟨System.send d.system.network
        (System.consumeReply c d.processing status (System.replyOf b status)).2,
        (System.consumeReply c d.processing status (System.replyOf b status)).1⟩ := by
  unfold EventLoops.consume
  rw [hrequest]
  exact congrArg (fun σ : System => (⟨σ.network,
    (System.consumeReply c d.processing status (System.replyOf b status)).1⟩ : System))
    (system_send d _)

/-- The client counts the end of a call as the system does. -/
theorem complete_client {status : Status} {b : Call} {n : Network}
    (hcall : d.system.network.calls[i]? = some b) (hsrc : b.src = none)
    (hstep : d.system.network.step c (.complete i status fs) = some n) {d' : EventLoops}
    (hsystem : d'.system = { d.system with network := n }) :
    System.step c d.system (.complete i status fs) = some (d'.consume c status b).system := by
  have hprocessing : d'.processing = d.system.processing := congrArg System.processing hsystem
  simp only [System.step, System.complete, hcall, hstep, Option.bind_eq_bind, Option.bind_some, hsrc]
  cases hrequest : b.request with
  | tpcPrepare request =>
    rw [system_consume status b hrequest, hsystem, hprocessing]
    rfl
  | _ => simp only [EventLoops.consume, hrequest, hsystem]

theorem complete_server {σ : System} {status : Status} {b : Call} {p : ℤ}
    (hcall : σ.network.calls[i]? = some b) (hopen : Network.canComplete b status = true)
    (hsrc : b.src = some p) : System.step c σ (.complete i status fs) =
      some { σ with network := σ.network.completeAt c i status fs b p } := by
  simp [System.step, System.complete, Network.step, hcall, hopen, hsrc]

/-- A call ends at its caller: its server handles the reply, or the client counts it. -/
theorem Wired.completed (h : Wired d) {status : Status} {t : Except Fault EventLoops}
    (hstep : step c (.ok d) (.complete i status fs) = some t) :
    ∃ d', t = .ok d' ∧ Wired d' ∧
      System.step c d.system (.complete i status fs) = some d'.system := by
  obtain ⟨w, hw, hstep⟩ := Option.bind_eq_some_iff.mp hstep
  obtain ⟨hopen, hstep⟩ := Option.ite_none_right_eq_some.mp hstep
  have hcall : d.system.network.calls[i]? = some (d.call w) := by
    rw [system, List.getElem?_map, hw, Option.map_some]
  have hwired := h.hangUp hw
  have hsystem := system_hangUp (d := d) (i := i) (w := w)
  have hloops : (d.setWire i { w with completed := true }).loops = d.loops := rfl
  generalize d.setWire i { w with completed := true } = d' at hstep hwired hsystem hloops
  cases hsrc : w.src with
  | none =>
    have hsrc' : (d.call w).src = none := hsrc
    rw [hsrc] at hstep
    cases hstep
    refine ⟨_, rfl, hwired.consume c status _, complete_client hcall hsrc' ?_ hsystem⟩
    simp [Network.step, hcall, hopen, hsrc']
  | some p =>
    have hsrc' : (d.call w).src = some p := hsrc
    rw [hsrc] at hstep
    obtain ⟨l, hl, hstep⟩ := Option.bind_eq_some_iff.mp hstep
    rw [InCalls.step_response] at hl
    obtain rfl := Option.some.inj hl
    obtain rfl := Option.some.inj hstep
    rw [← hloops]
    refine ⟨_, rfl, hwired.turn_kept ((hwired.living p).reacted _) (InCalls.reacted_kept _ _), ?_⟩
    have hprocessing : d'.processing = d.processing := congrArg System.processing hsystem
    rw [complete_server hcall hopen hsrc', system_turn_kept (InCalls.reacted_kept _ _) rfl, hsystem,
      hprocessing, hloops]
    rfl

/-- Every turn is what the system does for it, or nothing to the system. -/
theorem Wired.step (h : Wired d) {e : LoopEvent} {t : Except Fault EventLoops}
    (hstep : EventLoops.step c (.ok d) e = some t) :
    ∃ d', t = .ok d' ∧ Wired d' ∧
      run (System.step c) d.system (action (.ok d) e).toList = some d'.system := by
  cases e with
  | client a =>
    obtain ⟨d', hd', rfl⟩ := Option.map_eq_some_iff.mp hstep
    obtain ⟨calls, processing, rfl, ha⟩ := client_eq hd'
    refine ⟨_, rfl, h.send calls processing, ?_⟩
    rw [action, Option.toList_some, run, ha]
    exact congrArg (fun σ : System => some (⟨σ.network, processing⟩ : System)) (system_send d calls).symm
  | receive i tag fs =>
    obtain ⟨w, hw, hstep⟩ := Option.bind_eq_some_iff.mp hstep
    split_ifs at hstep with hnone
    obtain ⟨t', ht', hstep⟩ := Option.bind_eq_some_iff.mp hstep
    obtain ⟨l, rfl, hl, hturn⟩ := (h.living w.dst).step_request ht'
    cases hstep
    have hreceived := h.received hl hw (by simpa using hnone) hturn
    refine ⟨_, rfl, hreceived.1, ?_⟩
    rw [action, Option.toList_some, run, hreceived.2]
    rfl
  | proceed id tag done fs =>
    cases done with
    | request => cases hstep
    | alarm =>
      obtain ⟨t', ht', hstep⟩ := Option.bind_eq_some_iff.mp hstep
      obtain ⟨l, rfl, hl, hturn⟩ := (h.living id).step_request ht'
      cases hstep
      obtain ⟨hwired, i, htaken, hsystem⟩ := h.retried hl hturn
      refine ⟨_, rfl, hwired, ?_⟩
      rw [action, htaken, Option.map_some, Option.toList_some, run, hsystem]
      rfl
    | finish response =>
      obtain ⟨t', ht', hstep⟩ := Option.bind_eq_some_iff.mp hstep
      obtain ⟨l, rfl, hl, hturn⟩ := (h.living id).step_request ht'
      cases hstep
      obtain ⟨hwired, hsystem⟩ := h.finished hl hturn
      exact ⟨_, rfl, hwired, congrArg some hsystem.symm⟩
  | complete i status fs =>
    obtain ⟨d', rfl, hwired, hsystem⟩ := h.completed hstep
    refine ⟨d', rfl, hwired, ?_⟩
    rw [action, Option.toList_some, run, hsystem]
    rfl

/-- The loops in the state that the system is in. -/
def Implements (t : Except Fault EventLoops) (σ : System) : Prop :=
  ∃ d, t = .ok d ∧ Wired d ∧ d.system = σ

theorem implements_init (c : Constants) (disk : ℤ → Disk) :
    Implements (.ok (init c disk)) (System.init c disk) := by
  refine ⟨_, rfl, wired_init c disk, ?_⟩
  have hservers : (fun id => ((init c disk).loops id).server) = fun id => Server.init c id (disk id) :=
    funext fun id => InCalls.foldl_newInCall_server InCalls.listened (l := { server := _ })
  rw [system, hservers]
  rfl

theorem Implements.step {t t' : Except Fault EventLoops} {σ : System} {e : LoopEvent}
    (h : Implements t σ) (hstep : EventLoops.step c t e = some t') :
    ∃ σ', run (System.step c) σ (action t e).toList = some σ' ∧ Implements t' σ' := by
  obtain ⟨d, rfl, hwired, rfl⟩ := h
  obtain ⟨d', rfl, hwired', hrun⟩ := hwired.step hstep
  exact ⟨_, hrun, d', rfl, hwired', rfl⟩

/-! ### The converse -/

theorem step_request_enabled {l : InCalls} {done : Completion}
    (hops : done.operation ∈ l.operations tag) :
    ∃ t, InCalls.step c (.ok l) (.request tag done fs) = some t :=
  ⟨_, if_pos (mem_bagOf.mp hops)⟩

/-- There is always an object that can take a call, and the alarm is set for one that was not
answered. -/
theorem Wired.deliver_enabled (h : Wired d) (hw : d.wires[i]? = some w)
    (hopen : (d.call w).response = none) : ∃ e t, EventLoops.step c (.ok d) e = some t ∧
      action (.ok d) e = some (.deliver i fs) := by
  cases htag : w.tag with
  | none =>
    obtain ⟨tag, hlistens, -⟩ := (h.living w.dst).listening w.request.type
    have hops := (hlistens.waiting ((h.living w.dst).lives tag)).2
    obtain ⟨t, ht⟩ : ∃ t, InCalls.step c (.ok (d.loops w.dst))
        (.request tag (.request w.request) fs) = some t :=
      step_request_enabled (hops ▸ Multiset.mem_singleton_self _)
    refine ⟨.receive i tag fs, t.map ((d.setWire i { w with tag := some tag }).turn w.dst), ?_, rfl⟩
    simp [EventLoops.step, hw, htag, ht]
  | some tag =>
    have hheld : d.held i = some (w.dst, tag, w.request) :=
      held_eq_some.mpr ⟨w, hw, rfl, htag, rfl⟩
    have hreply : (d.loops w.dst).reply tag = none := by
      rw [call, htag] at hopen
      exact hopen
    have hops := ((h.living w.dst).lives tag).alarm (h.took hheld) hreply
    obtain ⟨t, ht⟩ : ∃ t, InCalls.step c (.ok (d.loops w.dst)) (.request tag .alarm fs) = some t :=
      step_request_enabled (hops ▸ Multiset.mem_singleton_self _)
    refine ⟨.proceed w.dst tag .alarm fs, t.map (d.turn w.dst), ?_, ?_⟩
    · simp [EventLoops.step, ht]
    · rw [action, h.taken_eq hheld]
      rfl

theorem exists_wire {b : Call} (h : d.system.network.calls[i]? = some b) :
    ∃ w, d.wires[i]? = some w ∧ d.call w = b := by
  rw [system, List.getElem?_map] at h
  exact Option.map_eq_some_iff.mp h

/-- What the system can do is done by a turn of a loop. -/
theorem Wired.enabled (h : Wired d) {a : Action} {σ : System}
    (ha : System.step c d.system a = some σ) :
    ∃ e t, EventLoops.step c (.ok d) e = some t ∧ action (.ok d) e = some a := by
  have hclient : a.ofClient → ∃ e t, EventLoops.step c (.ok d) e = some t ∧
      action (.ok d) e = some a := by
    intro hclient
    have hstep := step_client (c := c) hclient d.system.network.servers d.system.network.calls
      d.processing
    obtain ⟨τ, hτ, -⟩ := Option.map_eq_some_iff.mp (hstep.symm.trans ha)
    have hd : ∃ d', d.client c a = some d' := ⟨_, Option.bind_eq_some_iff.mpr ⟨τ, hτ, rfl⟩⟩
    obtain ⟨d', hd'⟩ := hd
    exact ⟨.client a, _, Option.map_eq_some_iff.mpr ⟨d', hd', rfl⟩, rfl⟩
  cases a with
  | deliver i fs =>
    obtain ⟨n, hn, -⟩ := Option.bind_eq_some_iff.mp ha
    obtain ⟨b, hb, hn⟩ := Option.bind_eq_some_iff.mp hn
    obtain ⟨hnone, -⟩ := Option.ite_none_right_eq_some.mp hn
    obtain ⟨w, hw, rfl⟩ := exists_wire hb
    exact h.deliver_enabled hw (by simpa using hnone)
  | complete i status fs =>
    obtain ⟨b, hb, ha⟩ := Option.bind_eq_some_iff.mp ha
    obtain ⟨n, hn, -⟩ := Option.bind_eq_some_iff.mp ha
    obtain ⟨b', hb', hn⟩ := Option.bind_eq_some_iff.mp hn
    obtain rfl : b = b' := Option.some.inj (hb.symm.trans hb')
    obtain ⟨hopen, -⟩ := Option.ite_none_right_eq_some.mp hn
    obtain ⟨w, hw, rfl⟩ := exists_wire hb
    refine ⟨.complete i status fs, ?_⟩
    cases hsrc : w.src <;>
      simp [EventLoops.step, action, hw, hopen, hsrc, InCalls.step_response]
  | _ => exact hclient trivial

theorem Implements.realizes {t : Except Fault EventLoops} {σ σ' : System} {a : Action}
    (h : Implements t σ) (ha : System.step c σ a = some σ') :
    ∃ e t', EventLoops.step c t e = some t' ∧ action t e = some a ∧ Implements t' σ' := by
  obtain ⟨d, rfl, hwired, rfl⟩ := h
  obtain ⟨e, t', hstep, haction⟩ := hwired.enabled ha
  obtain ⟨σ'', hrun, ht'⟩ := Implements.step ⟨d, rfl, hwired, rfl⟩ hstep
  rw [haction, Option.toList_some, run, ha] at hrun
  obtain rfl := Option.some.inj hrun
  exact ⟨e, t', hstep, haction, ht'⟩

/-- The loops never fault, each call is handled by an object of its own, and whatever the loops
do is a run of the system, with the same servers, calls and counts. -/
theorem reaches_refines {disk : ℤ → Disk} {es : List LoopEvent} {t : Except Fault EventLoops}
    (h : Reaches c disk es t) : ∃ d, t = .ok d ∧ d.Wired ∧
      run (System.step c) (System.init c disk)
        (observe (EventLoops.step c) action (.ok (init c disk)) es) = some d.system := by
  obtain ⟨σ, hrun, d, rfl, hwired, rfl⟩ := h.refines (Q := fun _ _ => True) (R := Implements)
    (implements_init c disk) fun _ _ _ _ hR _ hs => by
      obtain ⟨σ', hrun, hR'⟩ := hR.step hs
      exact ⟨σ', runs_of_run hrun, hR'⟩
  exact ⟨d, rfl, hwired, hrun.run_eq⟩

/-- Server 1 commits a transfer with the vote of server 2: its object is retried twice, and has
finished before the client sees the reply. -/
def retriedTransferLoops : List LoopEvent :=
  [.client (.processTransaction ⟨1, 2, 3⟩ ["S1".toList, "S4".toList, "S7".toList] 7),
    .receive 0 3 .allOpen, .receive 1 6 .allOpen, .complete 1 .ok .allOpen,
    .proceed 1 3 .alarm .allOpen, .receive 3 7 .allOpen, .complete 3 .ok .allOpen,
    .proceed 1 3 .alarm .allOpen, .proceed 1 3 (.finish (.transfer ⟨true, 7⟩)) .allOpen,
    .complete 0 .ok .allOpen]

/-- What that run is to the system. -/
def polledTransferRun : List Action :=
  [.processTransaction ⟨1, 2, 3⟩ ["S1".toList, "S4".toList, "S7".toList] 7, .arrives 0,
    .arrives 1, .returns 1, .arrives 0, .arrives 3, .returns 3, .arrives 0, .returns 0]

theorem reaches_refines_retriedTransfer : ∃ d,
    run (EventLoops.step .standard) (.ok (init .standard fun _ => .empty)) retriedTransferLoops =
      some (.ok d) ∧ d.Wired ∧
    run (System.step .standard) (System.init .standard fun _ => .empty)
      (observe (EventLoops.step .standard) action (.ok (init .standard fun _ => .empty))
        retriedTransferLoops) = some d.system ∧
    d.system.network.servers 1 = (d.loops 1).server ∧ (d.loops 1).server.log.length = 1 ∧
    (d.loops 1).objects[3]? = some none := by
  obtain ⟨t, hrun, ht⟩ := (Option.any_eq_true _ _).mp
    (show (run (EventLoops.step .standard) (.ok (init .standard fun _ => .empty))
      retriedTransferLoops).any (fun t => t.toOption.any fun d =>
        decide ((d.loops 1).server.log.length = 1 ∧ (d.loops 1).objects[3]? = some none)) = true by
      decide +kernel)
  obtain ⟨d, rfl, hwired, hsystem⟩ := reaches_refines (runs_of_run hrun)
  exact ⟨d, hrun, hwired, hsystem, rfl, of_decide_eq_true ht⟩

/-- Every run of the system is one of the loops, when they are given the calls of the main thread
at any time. The main thread itself waits for its synchronous calls before it makes the next one. -/
theorem reaches_realizes {disk : ℤ → Disk} {as : List Action} {σ : System}
    (h : System.Reaches c (fun _ _ => True) disk as σ) : ∃ es d, Reaches c disk es (.ok d) ∧
      observe (EventLoops.step c) action (.ok (init c disk)) es = as ∧ d.system = σ := by
  obtain ⟨es, t, hrun, hobs, d, rfl, -, hd⟩ := exists_run_of_run h.run_eq
    (implements_init c disk) fun t σ a σ' hR ha => hR.realizes ha
  exact ⟨es, d, runs_of_run hrun, hobs, hd⟩

theorem reaches_realizes_polledTransfer : ∃ es d,
    Reaches .standard (fun _ => .empty) es (.ok d) ∧
    observe (EventLoops.step .standard) action (.ok (init .standard fun _ => .empty)) es =
      polledTransferRun ∧ (d.system.network.servers 1).log.length = 1 := by
  obtain ⟨σ, hrun, hlog⟩ := (Option.any_eq_true _ _).mp
    (show (run (System.step .standard) (System.init .standard fun _ => .empty)
      polledTransferRun).any (fun σ => decide ((σ.network.servers 1).log.length = 1)) = true by
      decide +kernel)
  obtain ⟨es, d, hreaches, hobs, rfl⟩ := reaches_realizes (runs_of_run hrun)
  exact ⟨es, d, hreaches, hobs, of_decide_eq_true hlog⟩

end EventLoops
end TpcBank
