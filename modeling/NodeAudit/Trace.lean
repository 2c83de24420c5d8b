import NodeAudit.Fault
import NodeAudit.Resource.Kind

/-! Runs as values: the calls made to a cluster, the lines logged and printed, in order, and how the
run ended. A fault ends a run and keeps what happened before it. -/
namespace NodeAudit

inductive Level where
  | trace
  | debug
  | info
  | warn
  | error
deriving DecidableEq

namespace Level

def rank : Level → Nat
  | .trace => 0
  | .debug => 1
  | .info => 2
  | .warn => 3
  | .error => 4

def name : Level → String
  | .trace => "TRACE"
  | .debug => "DEBUG"
  | .info => "INFO"
  | .warn => "WARN"
  | .error => "ERROR"

end Level

inductive Origin where
  | program
  | roles
  | kubelet
deriving DecidableEq

/-- The name by which a filter knows the lines of a module. -/
def Origin.target : Origin → String
  | .program => "compliance_nodeutils"
  | .roles => "compliance_nodeutils::nodeutils::roles"
  | .kubelet => "compliance_nodeutils::nodeutils::kubelet"

inductive Call where
  | get (kind : Kind) (name : String)
  | list (kind : Kind)
deriving DecidableEq

inductive Event where
  | call (call : Call)
  | log (origin : Origin) (level : Level) (message : String)
  | line (text : String)
deriving DecidableEq

structure Trace (α : Type) where
  events : List Event
  outcome : Except Fault α

namespace Trace
variable {α β : Type}

protected def bind (first : Trace α) (next : α → Trace β) : Trace β :=
  match first.outcome with
  | .ok a => ⟨first.events ++ (next a).events, (next a).outcome⟩
  | .error fault => ⟨first.events, .error fault⟩

instance : Monad Trace where
  pure a := ⟨[], .ok a⟩
  bind := Trace.bind

def note (event : Event) : Trace Unit := ⟨[event], .ok ()⟩

def log (origin : Origin) (level : Level) (message : String) : Trace Unit :=
  note (.log origin level message)

def print (text : String) : Trace Unit := note (.line text)

def of (outcome : Except Fault α) : Trace α := ⟨[], outcome⟩

def fail (fault : Fault) : Trace α := of (.error fault)

def calls (trace : Trace α) : List Call :=
  trace.events.filterMap fun
    | .call call => some call
    | _ => none

def logs (trace : Trace α) : List (Origin × Level × String) :=
  trace.events.filterMap fun
    | .log origin level message => some (origin, level, message)
    | _ => none

def lines (trace : Trace α) : List String :=
  trace.events.filterMap fun
    | .line text => some text
    | _ => none

end Trace
end NodeAudit
