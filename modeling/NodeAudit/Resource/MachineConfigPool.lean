import NodeAudit.Resource.Metadata

/-! Machine config pools: a set of nodes, and the machine configs merged into what they run. -/
namespace NodeAudit

structure PoolConfiguration where
  name : Option String := none
  source : List ObjectReference := []
deriving DecidableEq

structure PoolSpec where
  machineConfigSelector : Option LabelSelector := none
  nodeSelector : Option LabelSelector := none
  paused : Bool := false
  configuration : PoolConfiguration := {}
deriving DecidableEq

structure MachineConfigPool where
  metadata : Metadata := {}
  spec : PoolSpec := {}

namespace MachineConfigPool

def configurationCodec : Codec PoolConfiguration := .strict "MachineConfigPoolConfiguration" {} [
  .of "name" (.optional .string) (·.name) fun r v => { r with name := v },
  .of "source" (.list ObjectReference.codec) (·.source) fun r v => { r with source := v }]

def specCodec : Codec PoolSpec := .strict "MachineConfigPoolSpec" {} [
  .of "machineConfigSelector" (.optional LabelSelector.codec) (·.machineConfigSelector)
    fun r v => { r with machineConfigSelector := v },
  .of "nodeSelector" (.optional LabelSelector.codec) (·.nodeSelector)
    fun r v => { r with nodeSelector := v },
  .of "paused" .boolean (·.paused) fun r v => { r with paused := v },
  .of "configuration" configurationCodec (·.configuration)
    fun r v => { r with configuration := v }]

def fields : List (Field MachineConfigPool) := [
  .need "metadata" Metadata.codec (·.metadata) fun r v => { r with metadata := v },
  .need "spec" specCodec (·.spec) fun r v => { r with spec := v }]

/-- Names of the machine configs merged into the pool, in the order of merging. -/
def sourceNames (pool : MachineConfigPool) : List String :=
  pool.spec.configuration.source.filterMap (·.name)

def matchLabels (pool : MachineConfigPool) : Option Labels :=
  pool.spec.nodeSelector.bind (·.matchLabels)

/-- Nothing is matched by an empty selector, nor by a pool without labels. -/
def matchedBy (pool : MachineConfigPool) (selector : Labels) : Bool :=
  match pool.matchLabels with
  | some labels => !selector.isEmpty && !labels.isEmpty && selector == labels
  | none => false

def firstMatch (selector : Labels) (pools : List MachineConfigPool) : Option MachineConfigPool :=
  pools.find? fun pool => pool.matchedBy selector

def firstMatchIndex (selector : Labels) (pools : List MachineConfigPool) : Option Nat :=
  pools.findIdx? fun pool => pool.matchedBy selector

end MachineConfigPool
end NodeAudit
