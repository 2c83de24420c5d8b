import NodeAudit.Cluster
import NodeAudit.Kubelet.Generated

/-! From a generated machine config back to the kubelet config it was made from. -/
namespace NodeAudit.Kubelet

/-- The name of the first owner, if that is a kubelet config. -/
def ownerName? (config : MachineConfig) : Option String :=
  match config.metadata.owner? with
  | some owner => if owner.kind = Kind.kubeletConfig.name then some owner.name else none
  | none => none

def logOtherOwner (config : MachineConfig) : Trace Unit :=
  match config.metadata.owner? with
  | some owner =>
    Trace.log .kubelet .debug ("MachineConfig " ++ config.metadata.anyName ++
      " is owned by " ++ owner.kind ++ " " ++ owner.name ++ ", not a " ++ Kind.kubeletConfig.name)
  | none => return ()

def obtain (client : Client) (kind : Kind) (name : String) : Trace kind.Resource := do
  match ← client.fetch kind name with
  | .ok resource => return resource
  | .error failure => Trace.fail (.fetch kind.name name failure)

/-- The kubelet config that owns a machine config. Only its first owner counts. -/
def owner (config : Option MachineConfig) (client : Client) : Trace KubeletConfig := do
  match config with
  | none => Trace.fail (.invalidArgument "machine config is nil")
  | some config =>
    match ownerName? config with
    | none =>
      logOtherOwner config
      Trace.fail (.ownerNotFound Kind.kubeletConfig.name config.metadata.anyName)
    | some name =>
      Trace.log .kubelet .debug ("Fetching " ++ Kind.kubeletConfig.name ++ " " ++ name ++
        " owning " ++ config.metadata.anyName)
      obtain client .kubeletConfig name

/-- The newest generated machine config of a pool and the kubelet config it was made from, if the
pool has any. -/
def current (pool : MachineConfigPool) (client : Client) :
    Trace (Option (MachineConfig × KubeletConfig)) := do
  match ← latestGenerated pool with
  | none =>
    Trace.log .kubelet .debug ("Pool " ++ pool.metadata.anyName ++
      " uses no custom KubeletConfig")
    return none
  | some name =>
    let config ← obtain client .machineConfig name
    return some (config, ← owner (some config) client)

end NodeAudit.Kubelet
