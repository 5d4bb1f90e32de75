import TpcBank.Library.Transition
import TpcBank.Server

/-! The servers and the calls between them. The call table only grows: it is at once the
network and the history of everything that was sent and answered. -/
namespace TpcBank

/-- One RPC. The caller is a server, or the client when there is none. The callee sets the
response when it finishes the call; the caller learns of the end of the call once. -/
structure Call where
  src : Option ℤ
  dst : ℤ
  request : Request
  response : Option Response := none
  completed : Bool := false
  deriving DecidableEq

structure Network where
  servers : ℤ → Server
  calls : List Call

/-- One thing that happens: the client sends a request, a request reaches its server (or,
for a call to be retried, its alarm fires), or a call ends at its caller. -/
inductive Event
  | call (dst : ℤ) (request : Request)
  | deliver (i : ℕ) (fs : FileSystem)
  | complete (i : ℕ) (status : Status) (fs : FileSystem)

/-- Every file operation of the event succeeds. -/
def Event.working : Event → Prop
  | .call _ _ => True
  | .deliver _ fs | .complete _ _ fs => fs.working

/-- A request arrives, with every file operation succeeding. -/
def Event.arrives (i : ℕ) : Event := .deliver i .allOpen

/-- A response comes back, with every file operation succeeding. -/
def Event.returns (i : ℕ) : Event := .complete i .ok .allOpen

namespace Network

def init (c : Constants) (disk : ℤ → Disk) : Network :=
  ⟨fun id => Server.init c id (disk id), []⟩

/-- The calls a server has started. -/
def outCalls (src : ℤ) (sent : List OutCall) : List Call :=
  sent.map fun o => { src := some src, dst := o.dst, request := o.request }

/-- A request is handled by its server: at most once, not counting retries. -/
def deliver (c : Constants) (n : Network) (i : ℕ) (fs : FileSystem) (call : Call) : Network :=
  let h := (n.servers call.dst).proceed c fs call.request
  { servers := Function.update n.servers call.dst h.server
    calls := n.calls.set i { call with response := h.response } ++ outCalls call.dst h.sent }

/-- A call ends at the server that sent it. -/
def completeAt (c : Constants) (n : Network) (i : ℕ) (status : Status) (fs : FileSystem)
    (call : Call) (src : ℤ) : Network :=
  let r := (n.servers src).handleRPCResponse c fs call.request status (call.response.getD .empty)
  { servers := Function.update n.servers src r.1
    calls := n.calls.set i { call with completed := true } ++ outCalls src r.2 }

/-- A call can end with `OK` only once it has been answered, and with an error at any time. -/
def canComplete (call : Call) (status : Status) : Bool :=
  !call.completed && (status ≠ .ok || call.response.isSome)

def step (c : Constants) (n : Network) : Event → Option Network
  | .call dst request =>
      if request.fromClient then some { n with calls := n.calls ++ [⟨none, dst, request, none, false⟩] }
      else none
  | .deliver i fs => do
      let call ← n.calls[i]?
      if call.response.isNone then some (n.deliver c i fs call) else none
  | .complete i status fs => do
      let call ← n.calls[i]?
      if canComplete call status then
        match call.src with
        | none => some { n with calls := n.calls.set i { call with completed := true } }
        | some src => some (n.completeAt c i status fs call src)
      else none

/-- All runs from the start of the servers. -/
abbrev Reaches (c : Constants) (P : Network → Event → Prop) (disk : ℤ → Disk) :
    List Event → Network → Prop :=
  Transition.Runs (step c) P (init c disk)

end Network
end TpcBank
