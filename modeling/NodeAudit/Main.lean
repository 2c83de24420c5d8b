import NodeAudit.CommandLine.Run

/-! The program. All it does itself is to read what the command line names and to print. -/
namespace NodeAudit.CommandLine

def logLine (structured : Bool) (level : Level) (message : String) : String :=
  if structured then
    Json.render (.object [("level", .text level.name), ("message", .text message)])
  else level.name ++ " " ++ message

private def readFile (path : String) : IO (Except String Bytes) := do
  try
    let contents ← IO.FS.readBinFile path
    return .ok contents.toList
  catch problem => return .error problem.toString

private def fileOf : Option Request → Option String
  | some (.run { command := .stripSizing file, .. }) => some file
  | _ => none

/-- There is no way to a cluster from here, so a report ends with that fault. -/
private def unreachable : ClientFailure := .service "no cluster is configured"

def start (words : List String) : IO UInt8 := do
  let level ← IO.getEnv "LOG_LEVEL"
  let structured ← IO.getEnv "LOG_JSON"
  let environment name :=
    if name = "LOG_LEVEL" then level else if name = "LOG_JSON" then structured else none
  let file ←
    match fileOf (request? environment words) with
    | some path => readFile path
    | none => pure (.error "no file")
  let outcome := run { environment, file := fun _ => file, client := .error unreachable } words
  let json :=
    match outcome with
    | .ran invocation _ _ => invocation.structured
    | _ => false
  match outcome with
  | .misuse => IO.eprintln ("usage: " ++ programName ++ " (scan-name | pool | strip-sizing) ...")
  | _ => pure ()
  for line in outcome.output do IO.println line
  for (level, message) in outcome.logs do IO.eprintln (logLine json level message)
  match outcome.fault? with
  | some fault => IO.eprintln ("Error: " ++ fault.message)
  | none => pure ()
  return outcome.exitCode

end NodeAudit.CommandLine

def main (words : List String) : IO UInt32 := do
  return (← NodeAudit.CommandLine.start words).toUInt32
