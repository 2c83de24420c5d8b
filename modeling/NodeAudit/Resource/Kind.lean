import NodeAudit.Resource.KubeletConfig
import NodeAudit.Resource.MachineConfig
import NodeAudit.Resource.MachineConfigPool

/-! The kinds of resource that the library asks a cluster for. A resource is written with its kind
and the version of its interface; on reading both are ignored like any unknown field. -/
namespace NodeAudit

inductive Kind where
  | machineConfigPool
  | machineConfig
  | kubeletConfig
deriving DecidableEq

namespace Kind

def name : Kind → String
  | .machineConfigPool => "MachineConfigPool"
  | .machineConfig => "MachineConfig"
  | .kubeletConfig => "KubeletConfig"

def all : List Kind := [.machineConfigPool, .machineConfig, .kubeletConfig]

def ofName? (text : String) : Option Kind := all.find? fun kind => kind.name = text

abbrev Resource : Kind → Type
  | .machineConfigPool => MachineConfigPool
  | .machineConfig => MachineConfig
  | .kubeletConfig => KubeletConfig

def metadata : (kind : Kind) → kind.Resource → Metadata
  | .machineConfigPool, pool => pool.metadata
  | .machineConfig, config => config.metadata
  | .kubeletConfig, config => config.metadata

end Kind

def apiVersion : String := "machineconfiguration.openshift.io/v1"

/-- A resource with its kind written beside its own fields. -/
def Codec.resource {ρ : Type} (kind : Kind) (blank : ρ) (fields : List (Field ρ)) : Codec ρ :=
  { Codec.strict kind.name blank fields with
    toJson := fun resource =>
      .object ((("apiVersion", .text apiVersion) :: ("kind", .text kind.name) ::
        Codec.members fields resource)) }

namespace Kind

def codec : (kind : Kind) → Codec kind.Resource
  | .machineConfigPool => .resource .machineConfigPool {} MachineConfigPool.fields
  | .machineConfig => .resource .machineConfig {} MachineConfig.fields
  | .kubeletConfig => .resource .kubeletConfig {} KubeletConfig.fields

end Kind

instance : Inhabited MachineConfigPool := ⟨{}⟩
instance : Inhabited MachineConfig := ⟨{}⟩
instance : Inhabited KubeletConfig := ⟨{}⟩

end NodeAudit
