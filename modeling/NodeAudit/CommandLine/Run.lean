import NodeAudit.CommandLine.Arguments
import NodeAudit.Kubelet.Owner
import NodeAudit.Kubelet.Rendered
import NodeAudit.Resource.MachineConfigPool
import NodeAudit.Scan

/-! The program as a function of what surrounds it: which lines it prints, which it logs, and with
which code it ends. Its longest command reports on the pool that a node selector means, on its
kubelet config, and on whether that config has arrived on the pool's nodes. -/
namespace NodeAudit

def enumerate (client : Client) (kind : Kind) : Trace (List kind.Resource) := do
  match ← client.fetchAll kind with
  | .ok resources => return resources
  | .error failure => Trace.fail (.client failure)

def printName (word : String) (metadata : Metadata) : Trace Unit :=
  Trace.print (word ++ ": " ++ metadata.name.getD "")

def reportPool (pool : MachineConfigPool) (client : Client) : Trace Unit := do
  printName "pool" pool.metadata
  match ← Kubelet.current pool client with
  | none => Trace.print "kubeletconfig: <none>"
  | some (config, kubelet) =>
    printName "machineconfig" config.metadata
    printName "kubeletconfig" kubelet.metadata
    let rendered ← Kubelet.isRendered kubelet config
    Trace.print ("rendered: " ++ if rendered then "true" else "false")

def report (selector : Labels) (client : Client) : Trace Unit := do
  let pools ← enumerate client .machineConfigPool
  Trace.log .program .info ("Found " ++ decimal pools.length ++ " MachineConfigPools")
  match MachineConfigPool.firstMatch selector pools with
  | none =>
    Trace.log .program .warn ("No MachineConfigPool matches node selector " ++
      Text.quotedMap selector.entries)
  | some pool => reportPool pool client

namespace CommandLine

def programName : String := "compliance-nodeutils"

def programVersion : String := "0.1.0"

/-- What a run can see of the world, and what it leaves to libraries. -/
structure Surroundings where
  environment : String → Option String
  /-- The contents of a file, or what the system says against it. -/
  file : String → Except String Bytes
  client : Except ClientFailure Client
  /-- What the filter of the log makes of directives, the level asked for, the name of a module and
  the level of its line. A filter that is not given knows no directives. -/
  admits : Option String → Level → String → Level → Bool :=
    fun _ asked _ level => decide (asked.rank ≤ level.rank)
  /-- The lines of help on a command line that asks for it. -/
  help : List String → List String := fun _ => []

namespace Surroundings

/-- Whether lines of a module and a level are logged. The environment may hold directives on that,
and they come before the level asked for. -/
def hears (surroundings : Surroundings) (asked : Level) (origin : Origin) (level : Level) : Bool :=
  surroundings.admits (surroundings.environment "RUST_LOG") asked origin.target level

end Surroundings

def printScanName (profile : String) (selector : Labels) : Trace Unit := do
  Trace.print (← Roles.scanName profile selector)
  (Roles.all selector).forM fun role => Trace.log .program .info ("  role: " ++ role)

def printWithoutSizing (file : Except String Bytes) : Trace Unit := do
  let payload ← Trace.of (file.mapError .io)
  let stripped ← Trace.of (Kubelet.withoutSizing payload)
  match Utf8.text? stripped with
  | some text => Trace.print text
  | none => Trace.fail (.internal "stripped payload is not UTF-8")

def Command.run (surroundings : Surroundings) : Command → Trace Unit
  | .scanName profile selector => printScanName profile selector
  | .pool selector => do
    report selector (← Trace.of (surroundings.client.mapError .client))
  | .stripSizing file => printWithoutSizing (surroundings.file file)

inductive Outcome where
  /-- The command line asked for nothing that the program does. -/
  | misuse
  | version
  | help (lines : List String)
  | ran (invocation : Invocation) (hears : Origin → Level → Bool) (trace : Trace Unit)

def run (surroundings : Surroundings) (words : List String) : Outcome :=
  match request? surroundings.environment words with
  | none => .misuse
  | some .version => .version
  | some .help => .help (surroundings.help words)
  | some (.run invocation) =>
    .ran invocation (surroundings.hears invocation.level) (invocation.command.run surroundings)

namespace Outcome

def fault? : Outcome → Option Fault
  | .ran _ _ { outcome := .error fault, .. } => some fault
  | _ => none

def exitCode : Outcome → UInt8
  | .misuse => 2
  | .version => 0
  | .help _ => 0
  | .ran _ _ trace =>
    match trace.outcome with
    | .ok _ => 0
    | .error _ => 1

def output : Outcome → List String
  | .misuse => []
  | .version => [programName ++ " " ++ programVersion]
  | .help lines => lines
  | .ran _ _ trace => trace.lines

/-- The lines that the filter lets through. -/
def logs : Outcome → List (Level × String)
  | .ran _ hears trace => trace.logs.filterMap fun (origin, level, message) =>
    if hears origin level then some (level, message) else none
  | _ => []

def calls : Outcome → List Call
  | .ran _ _ trace => trace.calls
  | _ => []

end Outcome

end CommandLine
end NodeAudit
