import TpcBank.Effects
import TpcBank.Library.Tagged
import TpcBank.Library.Transition

/-! The objects behind the received calls: `in_call.cc`, and the loop of `HandleRPCs` that the
completion queues drive. An object is named by its place in the list of all that were ever
allocated; this is the tag under which it registers its operations. -/
namespace TpcBank

/-- `types::RequestTypes`. -/
inductive RequestTypes
  | tpcPrepare
  | tpcCommit
  | tpcAbort
  | transfer
  | prepare
  | accept
  | commit
  | sync
  | balance
  | logs
  | disconnect
  deriving DecidableEq, Repr

def Request.type : Request → RequestTypes
  | .tpcPrepare _ => .tpcPrepare
  | .tpcCommit _ => .tpcCommit
  | .tpcAbort _ => .tpcAbort
  | .transfer _ => .transfer
  | .balance _ => .balance
  | .logs => .logs
  | .prepare _ => .prepare
  | .accept _ => .accept
  | .commit _ => .commit
  | .sync _ => .sync
  | .disconnect _ => .disconnect

/-- The message that an object of a type is built with, all fields at their defaults. -/
def RequestTypes.buffer : RequestTypes → Request
  | .tpcPrepare => .tpcPrepare {}
  | .tpcCommit => .tpcCommit ⟨0⟩
  | .tpcAbort => .tpcAbort ⟨0⟩
  | .transfer => .transfer {}
  | .balance => .balance ⟨0⟩
  | .logs => .logs
  | .prepare => .prepare ⟨{}, 0⟩
  | .accept => .accept ⟨{}, {}⟩
  | .commit => .commit ⟨{}⟩
  | .sync => .sync ⟨0⟩
  | .disconnect => .disconnect ⟨[]⟩

@[simp] theorem RequestTypes.type_buffer (type : RequestTypes) : type.buffer.type = type := by
  cases type <;> rfl

inductive CallStatus
  | create
  | process
  | retry
  | finish
  deriving DecidableEq, Repr

/-- Of the request buffers of the class, an object only uses the one of its type. -/
structure InCall where
  status : CallStatus := .create
  request : Request
  deriving DecidableEq

/-- `type_`, which is never set after the constructor. -/
def InCall.type (o : InCall) : RequestTypes := o.request.type

/-- What an object registers with the completion queue of the requests. -/
inductive Operation
  | request (type : RequestTypes)
  | alarm
  | finish (response : Response)
  deriving DecidableEq

/-- The end of an operation. Asking for a request ends when one has come. -/
inductive Completion
  | request (request : Request)
  | alarm
  | finish (response : Response)
  deriving DecidableEq

def Completion.operation : Completion → Operation
  | .request r => .request r.type
  | .alarm => .alarm
  | .finish res => .finish res

/-- A request is written to the buffer it was asked for with. -/
def Completion.fill : Completion → InCall → InCall
  | .request r, o => { o with request := r }
  | _, o => o

/-- What an object has done or seen. A run without a response is one of `runPaxos` that
returned `false`. -/
inductive CallAction
  | started (operation : Operation)
  | completed (done : Completion)
  | ran (request : Request) (response : Option Response)
  | deleted
  deriving DecidableEq

/-- The server with all objects ever allocated, where `none` is one that was deleted. The
operations under way are `pending`; `sent` is what was sent to other servers. -/
structure InCalls where
  server : Server
  sent : List OutCall := []
  objects : List (Option InCall) := []
  pending : Multiset (ℕ × Operation) := 0
  history : List (ℕ × CallAction) := []

/-- What must not happen: `Proceed` on an object that was deleted, or a failed `CHECK_EQ`. -/
inductive Fault
  | freed
  | checkFailed
  deriving DecidableEq

/-- One turn of the loop in `HandleRPCs` for one of its two queues: an operation of an object
completes with `ok`, or a call that the server sent ends. -/
inductive QueueEvent
  | request (tag : ℕ) (done : Completion) (fs : FileSystem)
  | response (request : Request) (status : Status) (response : Response) (fs : FileSystem)

namespace InCalls

def start (l : InCalls) (tag : ℕ) (operation : Operation) : InCalls :=
  { l with
    pending := (tag, operation) ::ₘ l.pending
    history := l.history ++ [(tag, .started operation)] }

/-- The branch of `Proceed` for `CREATE`. -/
def requestNext (l : InCalls) (tag : ℕ) (o : InCall) : InCalls :=
  { l with objects := l.objects.set tag (some { o with status := .process }) }.start tag
    (.request o.type)

def alloc (l : InCalls) (type : RequestTypes) : InCalls :=
  { l with objects := l.objects ++ [some { request := type.buffer }] }

/-- The constructor, whose last statement is the first `Proceed()`. -/
def newInCall (l : InCalls) (type : RequestTypes) : InCalls :=
  (l.alloc type).requestNext l.objects.length { request := type.buffer }

/-- `InCall::Retry`. -/
def retry (l : InCalls) (tag : ℕ) : InCalls := l.start tag .alarm

/-- The `switch` on the type of a received request: run its handler, then set the alarm or
call `Finish`. -/
def serve (c : Constants) (fs : FileSystem) (l : InCalls) (tag : ℕ) (o : InCall) : InCalls :=
  let h := l.server.proceed c fs o.request
  let l : InCalls := { l with
    server := h.server
    sent := l.sent ++ h.sent
    history := l.history ++ [(tag, .ran o.request h.response)] }
  match h.response with
  | none => { l with objects := l.objects.set tag (some { o with status := .retry }) }.retry tag
  | some response =>
      let l := l.start tag (.finish response)
      { l with objects := l.objects.set tag (some { o with status := .finish }) }

def delete (l : InCalls) (tag : ℕ) : InCalls :=
  { l with
    objects := l.objects.set tag none
    history := l.history ++ [(tag, .deleted)] }

/-- `InCall::Proceed`. -/
def proceed (c : Constants) (fs : FileSystem) (l : InCalls) (tag : ℕ) : Except Fault InCalls :=
  match l.objects[tag]? with
  | some (some o) =>
      if o.status = .create then .ok (l.requestNext tag o)
      else if o.status = .process ∨ o.status = .retry then
        let l := if o.status = .process then l.newInCall o.type else l
        .ok (l.serve c fs tag o)
      else if o.status = .finish then .ok (l.delete tag)
      else .error .checkFailed
  | _ => .error .freed

/-- The types in the order in which `HandleRPCs` allocates their objects. -/
def listened : List RequestTypes :=
  [.tpcPrepare, .tpcCommit, .tpcAbort, .transfer, .balance, .logs, .prepare, .accept, .commit,
    .sync, .disconnect]

/-- `HandleRPCs` before its loop. -/
def handleRPCs (server : Server) : InCalls :=
  listened.foldl newInCall { server }

/-- What the queue does when an operation ends, before it returns the tag. -/
def complete (l : InCalls) (tag : ℕ) (done : Completion) : InCalls :=
  { l with
    objects := l.objects.modify tag (Option.map done.fill)
    pending := l.pending.erase (tag, done.operation)
    history := l.history ++ [(tag, .completed done)] }

def step (c : Constants) : Except Fault InCalls → QueueEvent → Option (Except Fault InCalls)
  | .error _, _ => none
  | .ok l, .request tag done fs =>
      if (tag, done.operation) ∈ l.pending then some ((l.complete tag done).proceed c fs tag)
      else none
  | .ok l, .response request status response fs =>
      let (server, sent) := l.server.handleRPCResponse c fs request status response
      some (.ok { l with server, sent := l.sent ++ sent })

/-- All sequences of completions from the start of the loop. -/
abbrev Reaches (c : Constants) (server : Server) :
    List QueueEvent → Except Fault InCalls → Prop :=
  Transition.Runs (step c) (fun _ _ => True) (.ok (handleRPCs server))

end InCalls
end TpcBank
