import TpcBank.InCalls
import TpcBank.Replay

/-! The life of the objects behind the received calls. Each waits for one request, runs its
handler until there is a response, finishes the call with it, and is deleted when that has
completed; at every time one object waits for each type of request. -/
namespace TpcBank
open Transition Tagged

namespace Server

/-- Only `runPaxos` leaves a call to be retried. -/
theorem polled_of_response_none {c : Constants} {fs : FileSystem} {s : Server} {r : Request}
    (h : (s.proceed c fs r).response = none) : r.polled.isSome := by
  cases r with
  | tpcPrepare r => rfl
  | transfer r => rfl
  | prepare r =>
    replace h : (s.processPrepareCall r).response = none := h
    unfold processPrepareCall at h
    split_ifs at h
  | accept r =>
    replace h : (s.processAcceptCall c fs r).response = none := h
    unfold processAcceptCall at h
    split_ifs at h
  | _ => cases h

end Server

/-- What follows a run of the handler. -/
def Operation.after : Option Response → Operation
  | none => .alarm
  | some response => .finish response

def CallStatus.after : Option Response → CallStatus
  | none => .retry
  | some _ => .finish

/-- What an object has done when a run on its request is due: it received the request, and some
runs on it were to be retried. -/
def received (r : Request) : ℕ → List CallAction
  | 0 => [.started (.request r.type), .completed (.request r)]
  | n + 1 => received r n ++ [CallAction.ran r none, .started .alarm, .completed .alarm]

/-- What it has done when it has called `Finish`. -/
def answered (r : Request) (n : ℕ) (response : Response) : List CallAction :=
  received r n ++ [CallAction.ran r (some response), .started (.finish response)]

/-- Only a Transfer or a TpcPrepare is retried: its handler is `runPaxos`. -/
def Retried (r : Request) (n : ℕ) : Prop := n = 0 ∨ r.polled.isSome

/-- What an object does in its life, as far as it has come, with its operations under way. -/
inductive Life : Option (Option InCall) → Multiset Operation → List CallAction → Prop
  | unallocated : Life none 0 []
  | waiting (o : InCall) (hstatus : o.status = .process) :
      Life (some (some o)) {.request o.type} [.started (.request o.type)]
  | retrying (o : InCall) (n : ℕ) (hstatus : o.status = .retry) (hpaxos : o.request.polled.isSome) :
      Life (some (some o)) {.alarm}
        (received o.request n ++ [CallAction.ran o.request none, .started .alarm])
  | finishing (o : InCall) (n : ℕ) (response : Response) (hstatus : o.status = .finish)
      (hn : Retried o.request n) :
      Life (some (some o)) {.finish response} (answered o.request n response)
  | deleted (r : Request) (n : ℕ) (response : Response) (hn : Retried r n) :
      Life (some none) 0 (answered r n response ++ [CallAction.completed (.finish response), .deleted])

/-- `Finish` is called. -/
def CallAction.isFinish : CallAction → Bool
  | .started (.finish _) => true
  | _ => false

section

variable {r : Request} {n : ℕ} {response : Response} {x : Option (Option InCall)}
  {ops : Multiset Operation} {acts before after : List CallAction}

@[simp] theorem completed_mem_received {r' : Request} :
    .completed (.request r') ∈ received r n ↔ r' = r := by
  induction n with
  | zero => simp [received]
  | succ n ih => simp [received, ih]

@[simp] theorem started_finish_notMem : .started (.finish response) ∉ received r n := by
  induction n with
  | zero => simp [received]
  | succ n ih => simp [received, ih]

@[simp] theorem deleted_notMem : .deleted ∉ received r n := by
  induction n with
  | zero => simp [received]
  | succ n ih => simp [received, ih]

@[simp] theorem countP_received : (received r n).countP CallAction.isFinish = 0 := by
  induction n with
  | zero => rfl
  | succ n ih =>
    rw [received, List.countP_append, ih]
    rfl

theorem answered_append (rest : List CallAction) :
    answered r n response ++ rest =
      (received r n ++ [CallAction.ran r (some response)]) ++
        CallAction.started (.finish response) :: rest := by
  simp [answered]

theorem Life.finished (h : Life x ops acts)
    (hacts : acts = before ++ CallAction.started (.finish response) :: after) :
    ∃ r n, before = received r n ++ [CallAction.ran r (some response)] ∧ Retried r n := by
  have hmem : .started (.finish response) ∈ acts := by simp [hacts]
  -- `Finish` was called once, so the list splits there in one way
  have hsplit : ∀ {r n response' rest}, .started (.finish response) ∉ rest →
      answered r n response' ++ rest = acts →
        before = received r n ++ [CallAction.ran r (some response)] := by
    intro r n response' rest hrest hall
    rw [hacts, answered_append] at hall
    obtain ⟨hbefore, hfinish, -⟩ := (List.append_cons_inj_of_notMem (by simp) hrest).mp hall
    cases hfinish
    exact hbefore.symm
  cases h with
  | finishing o n response' hstatus hn =>
    exact ⟨o.request, n, hsplit (by simp) (List.append_nil _), hn⟩
  | deleted r n response' hn =>
    exact ⟨r, n, hsplit (by simp) rfl, hn⟩
  | _ => simp at hmem

theorem Life.deleted_last (h : Life x ops acts)
    (hacts : acts = before ++ CallAction.deleted :: after) : after = [] ∧
      ∃ r n response, before = answered r n response ++ [CallAction.completed (.finish response)] := by
  have hmem : .deleted ∈ acts := by simp [hacts]
  cases h with
  | deleted r n response hn =>
    have hsplit : (answered r n response ++ [CallAction.completed (.finish response)]) ++
        CallAction.deleted :: [] = before ++ CallAction.deleted :: after := by
      rw [← hacts, List.append_assoc]
      rfl
    obtain ⟨hbefore, -, hafter⟩ :=
      (List.append_cons_inj_of_notMem (by simp [answered]) List.not_mem_nil).mp hsplit
    exact ⟨hafter.symm, r, n, response, hbefore.symm⟩
  | _ => simp [answered] at hmem

theorem Life.freed_iff (h : Life x ops acts) : x = some none ↔ .deleted ∈ acts := by
  cases h <;> simp [answered]

theorem Life.live (h : Life x ops acts) {operation : Operation} (hmem : operation ∈ ops) :
    ∃ o, x = some (some o) := by
  cases h <;> simp at hmem ⊢

theorem Life.answered_once (h : Life x ops acts) (hmem : .completed (.request r) ∈ acts) :
    acts.countP CallAction.isFinish = 1 ∨ acts.countP CallAction.isFinish = 0 ∧
      r.polled.isSome ∧ ops = {.alarm} ∧
        ∃ n, acts = received r n ++ [CallAction.ran r none, .started .alarm] := by
  cases h with
  | unallocated => simp at hmem
  | waiting => simp at hmem
  | retrying o n hstatus hpaxos =>
    obtain rfl : r = o.request := by simpa using hmem
    exact .inr ⟨by simp [CallAction.isFinish], hpaxos, rfl, n, rfl⟩
  | finishing => exact .inl (by simp [answered, List.countP_cons, CallAction.isFinish])
  | deleted => exact .inl (by simp [answered, List.countP_cons, CallAction.isFinish])

end

namespace InCalls

variable {c : Constants} {fs : FileSystem} {l l' : InCalls} {tag i : ℕ} {o : InCall} {n : ℕ}
  {type type' : RequestTypes} {done : Completion}

/-- The operations of an object that are under way. -/
def operations (l : InCalls) (tag : ℕ) : Multiset Operation := bagOf tag l.pending

/-- What an object has done and seen. -/
def actions (l : InCalls) (tag : ℕ) : List CallAction := listOf tag l.history

def LivesAt (l : InCalls) (i : ℕ) : Prop := Life l.objects[i]? (l.operations i) (l.actions i)

/-- An object is live and waits for a request. -/
def Listens (l : InCalls) (type : RequestTypes) (i : ℕ) : Prop :=
  ∃ o, l.objects[i]? = some (some o) ∧ o.status = .process ∧ o.type = type

/-- The handler of an object is about to run, with no operation of the object under way. -/
structure Handling (l : InCalls) (tag : ℕ) (o : InCall) (n : ℕ) : Prop where
  object : l.objects[tag]? = some (some o)
  operations : l.operations tag = 0
  actions : l.actions tag = received o.request n
  retried : Retried o.request n

/-- Nothing changes for one object. -/
structure SameAt (l l' : InCalls) (i : ℕ) : Prop where
  object : l'.objects[i]? = l.objects[i]?
  operations : l'.operations i = l.operations i
  actions : l'.actions i = l.actions i

theorem SameAt.livesAt (h : SameAt l l' i) (hlives : l.LivesAt i) : l'.LivesAt i := by
  unfold LivesAt
  rw [h.object, h.operations, h.actions]
  exact hlives

theorem SameAt.listens (h : SameAt l l' i) : l'.Listens type i ↔ l.Listens type i := by
  unfold Listens
  rw [h.object]

theorem SameAt.handling (h : SameAt l l' tag) (hl : l.Handling tag o n) : l'.Handling tag o n :=
  ⟨h.object.trans hl.object, h.operations.trans hl.operations, h.actions.trans hl.actions,
    hl.retried⟩

theorem SameAt.trans {l'' : InCalls} (h : SameAt l l' i) (h' : SameAt l' l'' i) : SameAt l l'' i :=
  ⟨h'.object.trans h.object, h'.operations.trans h.operations, h'.actions.trans h.actions⟩

/-! ### What each function does -/

theorem newInCall_eq : l.newInCall type =
    { l with
      objects := l.objects ++ [some { status := .process, request := type.buffer }]
      pending := (l.objects.length, .request type) ::ₘ l.pending
      history := l.history ++ [(l.objects.length, .started (.request type))] } := by
  simp [newInCall, alloc, requestNext, start, InCall.type]

theorem proceed_process (hobject : l.objects[tag]? = some (some o)) (hstatus : o.status = .process) :
    l.proceed c fs tag = .ok ((l.newInCall o.type).serve c fs tag o) := by
  simp [proceed, hobject, hstatus]

theorem proceed_retry (hobject : l.objects[tag]? = some (some o)) (hstatus : o.status = .retry) :
    l.proceed c fs tag = .ok (l.serve c fs tag o) := by
  simp [proceed, hobject, hstatus]

theorem proceed_finish (hobject : l.objects[tag]? = some (some o)) (hstatus : o.status = .finish) :
    l.proceed c fs tag = .ok (l.delete tag) := by
  simp [proceed, hobject, hstatus]

theorem serve_eq : l.serve c fs tag o =
    let h := l.server.proceed c fs o.request
    { server := h.server
      sent := l.sent ++ h.sent
      objects := l.objects.set tag (some { o with status := .after h.response })
      pending := (tag, .after h.response) ::ₘ l.pending
      history := l.history ++
        [(tag, .ran o.request h.response), (tag, .started (.after h.response))] } := by
  cases h : (l.server.proceed c fs o.request).response <;>
    simp [serve, retry, start, h, CallStatus.after, Operation.after]

theorem foldl_newInCall_server (types : List RequestTypes) :
    (types.foldl newInCall l).server = l.server := by
  induction types generalizing l with
  | nil => rfl
  | cons type types ih => exact ih

theorem newInCall_sameAt (hne : i ≠ l.objects.length) : SameAt l (l.newInCall type) i := by
  rw [newInCall_eq]
  refine ⟨?_, ?_, ?_⟩
  · dsimp only
    rw [List.getElem?_append, List.getElem?_singleton]
    grind
  · exact bagOf_cons.trans (if_neg hne.symm)
  · simp [actions, listOf_cons, hne.symm]

theorem serve_sameAt (hne : i ≠ tag) : SameAt l (l.serve c fs tag o) i := by
  rw [serve_eq]
  refine ⟨List.getElem?_set_ne hne.symm, bagOf_cons.trans (if_neg hne.symm), ?_⟩
  simp [actions, listOf_cons, hne.symm]

theorem delete_sameAt (hne : i ≠ tag) : SameAt l (l.delete tag) i := by
  refine ⟨List.getElem?_set_ne hne.symm, rfl, ?_⟩
  simp [delete, actions, listOf_cons, hne.symm]

theorem complete_sameAt (hmem : (tag, done.operation) ∈ l.pending) (hne : i ≠ tag) :
    SameAt l (l.complete tag done) i := by
  refine ⟨?_, bagOf_erase_of_ne hmem hne.symm, ?_⟩
  · exact List.getElem?_modify_ne _ _ hne.symm
  · simp [complete, actions, listOf_cons, hne.symm]

/-- The one operation of an object that was under way completes. -/
theorem complete_self (hobject : l.objects[tag]? = some (some o))
    (hops : l.operations tag = {done.operation}) :
    (l.complete tag done).objects[tag]? = some (some (done.fill o)) ∧
      (l.complete tag done).operations tag = 0 ∧
      (l.complete tag done).actions tag = l.actions tag ++ [CallAction.completed done] := by
  have hmem : (tag, done.operation) ∈ l.pending := by
    rw [← mem_bagOf, ← operations, hops]
    exact Multiset.mem_singleton_self _
  refine ⟨?_, ?_, ?_⟩
  · simp [complete, hobject]
  · have herase := bagOf_erase hmem
    rw [← operations, hops] at herase
    exact ((Multiset.cons_inj_right _).mp herase).symm
  · simp [complete, actions, listOf_cons]

theorem delete_self (hlt : tag < l.objects.length) : (l.delete tag).objects[tag]? = some none ∧
    (l.delete tag).operations tag = l.operations tag ∧
    (l.delete tag).actions tag = l.actions tag ++ [CallAction.deleted] := by
  refine ⟨List.getElem?_set_self hlt, rfl, ?_⟩
  simp [delete, actions, listOf_cons]

theorem newInCall_self (h : l.LivesAt l.objects.length) :
    (l.newInCall type).LivesAt l.objects.length := by
  unfold LivesAt at h ⊢
  rw [List.getElem?_eq_none le_rfl] at h
  generalize hops : l.operations _ = ops, hacts : l.actions _ = acts at h
  cases h
  have hlife := Life.waiting { status := .process, request := type.buffer } rfl
  rw [newInCall_eq]
  convert hlife using 1
  · simp
  · rw [operations, bagOf_cons, if_pos rfl, ← operations, hops]
    simp [InCall.type]
  · rw [actions, listOf_append, ← actions, hacts]
    simp [InCall.type, listOf_cons]

theorem newInCall_lives (h : ∀ i, l.LivesAt i) (i : ℕ) : (l.newInCall type).LivesAt i := by
  by_cases hi : i = l.objects.length
  · subst hi
    exact newInCall_self (h _)
  · exact (newInCall_sameAt hi).livesAt (h i)

theorem newInCall_listens : (l.newInCall type).Listens type' i ↔
    l.Listens type' i ∨ i = l.objects.length ∧ type' = type := by
  by_cases hi : i = l.objects.length
  · subst hi
    simp [Listens, newInCall_eq, InCall.type, eq_comm]
  · simp [(newInCall_sameAt hi).listens, hi]

theorem serve_self (c : Constants) (fs : FileSystem) (o : InCall)
    (hlt : tag < l.objects.length) :
    let response := (l.server.proceed c fs o.request).response
    (l.serve c fs tag o).objects[tag]? = some (some { o with status := .after response }) ∧
      (l.serve c fs tag o).operations tag = .after response ::ₘ l.operations tag ∧
      (l.serve c fs tag o).actions tag =
        l.actions tag ++ [CallAction.ran o.request response, .started (.after response)] := by
  rw [serve_eq]
  refine ⟨List.getElem?_set_self hlt, bagOf_cons.trans (if_pos rfl), ?_⟩
  simp [actions, listOf_cons]

/-- A run of the handler is followed by the alarm or by `Finish`. -/
theorem Handling.serve (h : l.Handling tag o n) : (l.serve c fs tag o).LivesAt tag := by
  obtain ⟨hobject, hops, hacts⟩ := serve_self c fs o
    (List.getElem?_eq_some_iff.mp h.object).1
  unfold LivesAt
  rw [hobject, hops, hacts, h.operations, h.actions]
  cases hresponse : (l.server.proceed c fs o.request).response with
  | none =>
    exact .retrying { o with status := .retry } n rfl (Server.polled_of_response_none hresponse)
  | some response => exact .finishing { o with status := .finish } n response rfl h.retried

theorem not_listens_set {x : Option InCall} (hx : ∀ o ∈ x, o.status ≠ .process)
    (hobjects : l'.objects = l.objects.set tag x) : ¬ l'.Listens type tag := by
  rintro ⟨o, ho, hstatus, -⟩
  rw [hobjects, List.getElem?_set, if_pos rfl] at ho
  split_ifs at ho
  obtain rfl : x = some o := Option.some.inj ho
  exact hx o rfl hstatus

theorem not_listens_serve : ¬ (l.serve c fs tag o).Listens type tag := by
  refine not_listens_set ?_ (congrArg InCalls.objects serve_eq)
  intro o' ho'
  obtain rfl := Option.mem_some_iff.mp ho'
  cases (l.server.proceed c fs o.request).response <;> simp [CallStatus.after]

theorem not_listens_delete : ¬ (l.delete tag).Listens type tag :=
  not_listens_set (x := none) (by simp) rfl

/-! ### The invariant -/

structure Living (l : InCalls) : Prop where
  lives : ∀ i, l.LivesAt i
  listening : ∀ type, ∃! i, l.Listens type i

theorem foldl_newInCall_lives (types : List RequestTypes) (h : ∀ i, l.LivesAt i) :
    ∀ i, (types.foldl newInCall l).LivesAt i := by
  induction types generalizing l with
  | nil => exact h
  | cons type types ih => exact ih (newInCall_lives h)

theorem foldl_newInCall_objects (types : List RequestTypes) : (types.foldl newInCall l).objects =
    l.objects ++ types.map fun type => some { status := .process, request := type.buffer } := by
  induction types generalizing l with
  | nil => exact (List.append_nil _).symm
  | cons type types ih =>
    rw [List.foldl_cons, ih, newInCall_eq, List.append_assoc]
    rfl

theorem handleRPCs_listens (server : Server) :
    (handleRPCs server).Listens type i ↔ listened[i]? = some type := by
  unfold Listens InCalls.handleRPCs
  rw [foldl_newInCall_objects, List.nil_append, List.getElem?_map]
  cases listened[i]? <;> simp [InCall.type]

theorem mem_listened (type : RequestTypes) : type ∈ listened := by
  cases type <;> decide

theorem listened_nodup : listened.Nodup := by decide

theorem Living.handleRPCs (server : Server) : Living (handleRPCs server) where
  lives := foldl_newInCall_lives listened fun i => .unallocated
  listening := by
    intro type
    obtain ⟨i, hi⟩ := List.mem_iff_getElem?.mp (mem_listened type)
    refine ⟨i, (handleRPCs_listens server).mpr hi, ?_⟩
    intro j hj
    have hj := (handleRPCs_listens server).mp hj
    exact (List.getElem?_inj (List.getElem?_eq_some_iff.mp hj).1 listened_nodup).mp
      (hj.trans hi.symm)

theorem not_listens_of_status (hobject : l.objects[tag]? = some (some o))
    (hstatus : o.status ≠ .process) : ¬ l.Listens type tag := by
  rintro ⟨o', ho', hprocess, -⟩
  rw [hobject] at ho'
  cases ho'
  exact hstatus hprocess

/-- An object that listens neither before nor after is all that changes. -/
theorem Living.of_sameAt (h : Living l) (hsame : ∀ i, i ≠ tag → SameAt l l' i)
    (hlives : l'.LivesAt tag) (hbefore : ∀ type, ¬ l.Listens type tag)
    (hafter : ∀ type, ¬ l'.Listens type tag) : Living l' := by
  constructor
  · intro i
    by_cases hi : i = tag
    · exact hi ▸ hlives
    · exact (hsame i hi).livesAt (h.lives i)
  · intro type
    refine (existsUnique_congr fun i => ?_).mp (h.listening type)
    by_cases hi : i = tag
    · subst hi
      exact iff_of_false (hbefore type) (hafter type)
    · exact (hsame i hi).listens.symm

/-- A request has come: another object is allocated to wait, and the handler runs. -/
theorem Living.process (h : Living l) (hl : l'.Handling tag o 0)
    (hsame : ∀ i, i ≠ tag → SameAt l l' i) (hlistens : l.Listens o.type tag) :
    Living ((l'.newInCall o.type).serve c fs tag o) := by
  have hlt : tag < l'.objects.length := (List.getElem?_eq_some_iff.mp hl.object).1
  have hnew : ∀ {type i}, i ≠ tag → (((l'.newInCall o.type).serve c fs tag o).Listens type i ↔
      l.Listens type i ∨ i = l'.objects.length ∧ type = o.type) := by
    intro type i hi
    rw [(serve_sameAt hi).listens, newInCall_listens, (hsame i hi).listens]
  constructor
  · intro i
    by_cases hi : i = tag
    · subst hi
      exact ((newInCall_sameAt hlt.ne).handling hl).serve
    · apply (serve_sameAt hi).livesAt
      by_cases hlast : i = l'.objects.length
      · subst hlast
        exact newInCall_self ((hsame _ hi).livesAt (h.lives _))
      · exact (newInCall_sameAt hlast).livesAt ((hsame i hi).livesAt (h.lives i))
  · intro type
    obtain ⟨i, hi, hunique⟩ := h.listening type
    by_cases htype : type = o.type
    · -- the object that listened is busy, the new one listens in its place
      subst htype
      refine ⟨l'.objects.length, (hnew hlt.ne').mpr (.inr ⟨rfl, rfl⟩), ?_⟩
      intro j hj
      have hne : j ≠ tag := by
        rintro rfl
        exact not_listens_serve hj
      rcases (hnew hne).mp hj with hj | ⟨hj, -⟩
      · exact absurd ((hunique j hj).trans (hunique tag hlistens).symm) hne
      · exact hj
    · have hne : i ≠ tag := by
        rintro rfl
        obtain ⟨o₁, ho₁, -, hi⟩ := hi
        obtain ⟨o₂, ho₂, -, hlistens⟩ := hlistens
        rw [ho₁] at ho₂
        cases ho₂
        exact htype (hi.symm.trans hlistens)
      refine ⟨i, (hnew hne).mpr (.inl hi), ?_⟩
      intro j hj
      have hne : j ≠ tag := by
        rintro rfl
        exact not_listens_serve hj
      rcases (hnew hne).mp hj with hj | ⟨-, hj⟩
      · exact hunique j hj
      · exact absurd hj htype

theorem Living.complete (h : Living l) (hmem : (tag, done.operation) ∈ l.pending) :
    ∃ l', (l.complete tag done).proceed c fs tag = .ok l' ∧ Living l' := by
  have hlife := h.lives tag
  have hsame : ∀ i, i ≠ tag → SameAt l (l.complete tag done) i := fun i => complete_sameAt hmem
  rw [← mem_bagOf, ← operations] at hmem
  unfold LivesAt at hlife
  generalize hobject : l.objects[tag]? = x, hops : l.operations tag = ops,
    hacts : l.actions tag = acts at hlife
  rw [hops] at hmem
  cases hlife with
  | unallocated => cases hmem
  | deleted => cases hmem
  | waiting o hstatus =>
    have hdone := Multiset.mem_singleton.mp hmem
    obtain ⟨hobject', hops', hacts'⟩ := complete_self hobject (hdone ▸ hops)
    cases done with
    | request r =>
      have htype : r.type = o.type := Operation.request.inj hdone
      refine ⟨_, proceed_process hobject' hstatus, ?_⟩
      have hl : (l.complete tag (.request r)).Handling tag { o with request := r } 0 :=
        ⟨hobject', hops', by rw [hacts', hacts, ← htype]; rfl, .inl rfl⟩
      exact h.process hl hsame ⟨o, hobject, hstatus, htype.symm⟩
    | _ => cases hdone
  | retrying o n hstatus hpaxos =>
    have hdone := Multiset.mem_singleton.mp hmem
    obtain ⟨hobject', hops', hacts'⟩ := complete_self hobject (hdone ▸ hops)
    cases done with
    | alarm =>
      refine ⟨_, proceed_retry hobject' hstatus, ?_⟩
      have hl : (l.complete tag .alarm).Handling tag o (n + 1) :=
        ⟨hobject', hops', by rw [hacts', hacts, List.append_assoc]; rfl, .inr hpaxos⟩
      exact h.of_sameAt (fun i hi => (hsame i hi).trans (serve_sameAt hi)) hl.serve
        (fun type => not_listens_of_status hobject (by simp [hstatus]))
        fun type => not_listens_serve
    | _ => cases hdone
  | finishing o n response hstatus hn =>
    have hdone := Multiset.mem_singleton.mp hmem
    obtain ⟨hobject', hops', hacts'⟩ := complete_self hobject (hdone ▸ hops)
    cases done with
    | finish response' =>
      obtain rfl := Operation.finish.inj hdone
      refine ⟨_, proceed_finish hobject' hstatus, ?_⟩
      refine h.of_sameAt (fun i hi => (hsame i hi).trans (delete_sameAt hi)) ?_
        (fun type => not_listens_of_status hobject (by simp [hstatus]))
        fun type => not_listens_delete
      obtain ⟨hobject'', hops'', hacts''⟩ :=
        delete_self (List.getElem?_eq_some_iff.mp hobject').1
      unfold LivesAt
      rw [hobject'', hops'', hacts'', hops', hacts', hacts, List.append_assoc]
      exact .deleted o.request n response' hn
    | _ => cases hdone

theorem Living.step (h : Living l) {e : QueueEvent} {t : Except Fault InCalls}
    (hstep : InCalls.step c (.ok l) e = some t) : ∃ l', t = .ok l' ∧ Living l' := by
  cases e with
  | request tag done fs =>
    obtain ⟨hmem, ht⟩ := Option.ite_none_right_eq_some.mp hstep
    cases ht
    exact h.complete hmem
  | response request status response fs =>
    cases hstep
    exact ⟨_, rfl, h.lives, h.listening⟩

theorem reaches_living {server : Server} {es : List QueueEvent} {t : Except Fault InCalls}
    (h : Reaches c server es t) : ∃ l, t = .ok l ∧ Living l := by
  refine h.invariant (I := fun t => ∃ l, t = .ok l ∧ Living l) ⟨_, rfl, .handleRPCs server⟩ ?_
  rintro _ e t ⟨l, rfl, hl⟩ - hstep
  exact hl.step hstep

/-! ### The lifecycle -/

/-- An object waits for a request of a type, with nothing else under way. -/
def Waiting (l : InCalls) (type : RequestTypes) (tag : ℕ) : Prop :=
  l.Listens type tag ∧ l.operations tag = {.request type}

/-- How often an object has called `Finish`. -/
def finishes (l : InCalls) (tag : ℕ) : ℕ := (l.actions tag).countP CallAction.isFinish

/-- What the objects have done and where they are, after any turns of the loop. -/
structure Lifecycle (l : InCalls) : Prop where
  /-- What an object has done is one life, as far as it has come. -/
  lives : ∀ tag, l.LivesAt tag
  /-- One object waits for a request of each type, -/
  listening : ∀ type, ∃! tag, l.Waiting type tag
  /-- and no other has asked for one. -/
  asked : ∀ type tag, .request type ∈ l.operations tag → l.Waiting type tag
  /-- A request that was received is answered once, or every run of `runPaxos` for it has
  returned `false` and the alarm is set for the next. -/
  answers : ∀ tag r, .completed (.request r) ∈ l.actions tag → l.finishes tag = 1 ∨
    l.finishes tag = 0 ∧ r.polled.isSome ∧ l.operations tag = {.alarm} ∧
      ∃ n, l.actions tag = received r n ++ [CallAction.ran r none, .started .alarm]
  /-- What comes before `Finish`: runs that were to be retried, and the one that was not. -/
  finished : ∀ tag response before after,
    l.actions tag = before ++ CallAction.started (.finish response) :: after →
      ∃ r n, before = received r n ++ [CallAction.ran r (some response)] ∧ Retried r n
  /-- An object is deleted right after its `Finish` has completed, and does nothing more. -/
  deleted : ∀ tag before after, l.actions tag = before ++ CallAction.deleted :: after → after = [] ∧
    ∃ r n response, before = answered r n response ++ [CallAction.completed (.finish response)]
  freed : ∀ tag, l.objects[tag]? = some none ↔ .deleted ∈ l.actions tag
  /-- An object with an operation under way was not deleted. -/
  used : ∀ tag operation, operation ∈ l.operations tag → ∃ o, l.objects[tag]? = some (some o)

theorem LivesAt.waiting (h : l.LivesAt tag) (hops : .request type ∈ l.operations tag) :
    l.Waiting type tag := by
  unfold LivesAt at h
  generalize hobject : l.objects[tag]? = x, hl : l.operations tag = ops,
    hacts : l.actions tag = acts at h
  rw [hl] at hops
  cases h with
  | waiting o hstatus =>
    obtain rfl := Operation.request.inj (Multiset.mem_singleton.mp hops)
    exact ⟨⟨o, hobject, hstatus, rfl⟩, hl⟩
  | _ => simp at hops

theorem Listens.waiting (h : l.Listens type tag) (hlives : l.LivesAt tag) : l.Waiting type tag := by
  refine ⟨h, ?_⟩
  obtain ⟨o, hobject, hstatus, rfl⟩ := h
  unfold LivesAt at hlives
  rw [hobject] at hlives
  generalize l.operations tag = ops, l.actions tag = acts at hlives ⊢
  cases hlives with
  | waiting => rfl
  | retrying _ n hretry =>
    rw [hretry] at hstatus
    cases hstatus
  | finishing _ n response hfinish =>
    rw [hfinish] at hstatus
    cases hstatus

theorem Living.lifecycle (h : Living l) : Lifecycle l where
  lives := h.lives
  listening := by
    intro type
    refine (existsUnique_congr fun tag => ?_).mp (h.listening type)
    exact ⟨fun hl => hl.waiting (h.lives tag), And.left⟩
  asked := fun type tag => (h.lives tag).waiting
  answers := fun tag r => (h.lives tag).answered_once
  finished := fun tag response before after => (h.lives tag).finished
  deleted := fun tag before after => (h.lives tag).deleted_last
  freed := fun tag => (h.lives tag).freed_iff
  used := fun tag operation => (h.lives tag).live

/-- No object that was deleted is used and the check on the last status holds, in any sequence of
completions, and the objects behind the calls keep to their lifecycle. -/
theorem reaches_lifecycle {server : Server} {es : List QueueEvent} {t : Except Fault InCalls}
    (h : Reaches c server es t) : ∃ l, t = .ok l ∧ l.Lifecycle := by
  obtain ⟨l, ht, hl⟩ := reaches_living h
  exact ⟨l, ht, hl.lifecycle⟩

/-- A transfer between two clients of the first cluster. -/
def retriedTransfer : Request := .transfer ⟨⟨1, 2, 3⟩, 7⟩

/-- The transfer is retried three times: the peer has not replied when its alarm first fires. -/
def retriedRun : List QueueEvent :=
  [.request 3 (.request retriedTransfer) .allOpen,
    .request 3 .alarm .allOpen,
    .response (.prepare ⟨⟨1, 1⟩, -1⟩) .ok (.prepare { ack := true, ballot := ⟨1, 1⟩ }) .allOpen,
    .request 3 .alarm .allOpen,
    .response (.accept ⟨⟨1, 1⟩, ⟨⟨1, 2, 3⟩, 7⟩⟩) .ok (.accept ⟨true, ⟨1, 1⟩⟩) .allOpen,
    .request 3 .alarm .allOpen,
    .request 3 (.finish (.transfer ⟨true, 7⟩)) .allOpen]

theorem reaches_lifecycle_retriedRun : ∃ l,
    Transition.run (step .standard) (.ok (handleRPCs (.init .standard 1 .empty))) retriedRun =
      some (.ok l) ∧
    l.Lifecycle ∧ l.objects[3]? = some none ∧
    l.actions 3 = answered retriedTransfer 3 (.transfer ⟨true, 7⟩) ++
      [CallAction.completed (.finish (.transfer ⟨true, 7⟩)), .deleted] := by
  obtain ⟨t, hrun, ht⟩ := (Option.any_eq_true _ _).mp
    (show (Transition.run (step .standard) (.ok (handleRPCs (.init .standard 1 .empty)))
      retriedRun).any (fun t => t.toOption.any fun l => decide (l.objects[3]? = some none ∧
        l.actions 3 = answered retriedTransfer 3 (.transfer ⟨true, 7⟩) ++
          [CallAction.completed (.finish (.transfer ⟨true, 7⟩)), .deleted])) = true by decide +kernel)
  obtain ⟨l, rfl, hlifecycle⟩ := reaches_lifecycle (runs_of_run hrun)
  exact ⟨l, hrun, hlifecycle, of_decide_eq_true ht⟩

end InCalls
end TpcBank
