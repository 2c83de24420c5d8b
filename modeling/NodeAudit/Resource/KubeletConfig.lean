import NodeAudit.Fault
import NodeAudit.Json.Compact
import NodeAudit.Json.Skip
import NodeAudit.Resource.Metadata

/-! Kubelet configs: settings that a user asks of the kubelets of some pools. Those among them that
size a node are never written to the kubelet's configuration file. -/
namespace NodeAudit

structure KubeletConfigSpec where
  autoSizingReserved : Option Bool := none
  logLevel : Option Int32 := none
  machineConfigPoolSelector : Option LabelSelector := none
  kubeletConfig : Option Json := none

structure KubeletConfig where
  metadata : Metadata := {}
  spec : KubeletConfigSpec := {}

namespace KubeletConfig

def specCodec : Codec KubeletConfigSpec := .strict "KubeletConfigSpec" {} [
  .of "autoSizingReserved" (.optional .boolean) (·.autoSizingReserved)
    fun r v => { r with autoSizingReserved := v },
  .of "logLevel" (.optional .int32) (·.logLevel) fun r v => { r with logLevel := v },
  .of "machineConfigPoolSelector" (.optional LabelSelector.codec) (·.machineConfigPoolSelector)
    fun r v => { r with machineConfigPoolSelector := v },
  .of "kubeletConfig" (.optional .json) (·.kubeletConfig)
    fun r v => { r with kubeletConfig := v }]

def fields : List (Field KubeletConfig) := [
  .need "metadata" Metadata.codec (·.metadata) fun r v => { r with metadata := v },
  .need "spec" specCodec (·.spec) fun r v => { r with spec := v }]

end KubeletConfig

namespace Kubelet
open Json

def sizingFields : List String := ["autoSizingReserved", "systemReserved"]

/-- The members of an object with the text of each value as it stands. -/
def verbatimObject : Bytes → Except Stop (SortedMap Bytes × Bytes) :=
  Codec.atByte fun b t =>
    if b = ascii '{' then Read.object Skip.verbatim t else Read.mismatch "a map" (b :: t)

def eraseSizing {α : Type} (settings : SortedMap α) : SortedMap α :=
  sizingFields.foldl SortedMap.erase settings

/-- The payload of a kubelet config without the settings that size a node. What is left stands in
ascending order of the names, and each value keeps its text. -/
def withoutSizing (payload : Bytes) : Except Fault Bytes :=
  match Read.document verbatimObject payload with
  | .ok settings => .ok (compactObject (eraseSizing settings).entries)
  | .error located => .error (.payloadDecode located)

end Kubelet
end NodeAudit
