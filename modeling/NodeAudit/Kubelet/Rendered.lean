import NodeAudit.Contents.DataUrl
import NodeAudit.Resource.KubeletConfig
import NodeAudit.Resource.MachineConfig
import NodeAudit.Trace
import NodeAudit.Yaml.Document

/-! Whether the settings of a kubelet config have arrived in the configuration file that a machine
config writes. -/
namespace NodeAudit.Kubelet
open Json

def configurationPath : String := "/etc/kubernetes/kubelet.conf"

def contents (source : String) : Except Fault Bytes :=
  (DataUrl.decode source).mapError fun problem => .unsupportedPayload problem.message

def renderedFile (config : MachineConfig) : Except Fault (Option Bytes) :=
  match config.findFile configurationPath with
  | .error reason =>
    .error (.invalidArgument ("machine config " ++ config.metadata.anyName ++
      " has malformed ignition: " ++ reason.message))
  | .ok file =>
    match file.bind (·.contents.source) with
    | some source => some <$> contents source
    | none => .ok none

/-- The settings in a configuration file, which is JSON or else YAML. -/
def settings (file : Bytes) : Except Fault (SortedMap Json) :=
  match (Codec.map .json).parse file with
  | .ok found => .ok found
  | .error _ =>
    match Yaml.parse file with
    | some found => .ok found
    | none => .error .renderedParse

def requested (payload : Json) : Except Fault (SortedMap Json) := do
  let stripped ← withoutSizing (compact payload)
  ((Codec.map .json).parse stripped).mapError .payloadDecode

/-- The requested settings that are missing or have another value. -/
def differing (requested settings : SortedMap Json) : List String :=
  (requested.entries.filter fun entry =>
    match settings.get? entry.1 with
    | some value => !value.agrees entry.2
    | none => true).map (·.1)

/-- Whether every setting of the kubelet config is in the file that the machine config writes. -/
def isRendered (kubelet : KubeletConfig) (config : MachineConfig) : Trace Bool := do
  match kubelet.spec.kubeletConfig with
  | none => return true
  | some payload =>
    match ← Trace.of (renderedFile config) with
    | none =>
      Trace.log .kubelet .debug ("MachineConfig " ++ config.metadata.anyName ++
        " does not write " ++ configurationPath)
      return false
    | some file =>
      let requested ← Trace.of (requested payload)
      let missing := differing requested (← Trace.of (settings file))
      unless missing.isEmpty do
        Trace.log .kubelet .debug ("KubeletConfig " ++ kubelet.metadata.anyName ++
          " not rendered into " ++ config.metadata.anyName ++ ": differing keys " ++
          Text.quotedList missing)
      return missing.isEmpty

end NodeAudit.Kubelet
