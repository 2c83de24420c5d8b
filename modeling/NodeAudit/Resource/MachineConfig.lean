import NodeAudit.Resource.Metadata

/-! Machine configs: settings of the kernel, and an Ignition document that is kept as it stands and
tells which files are written. -/
namespace NodeAudit

structure MachineConfigSpec where
  config : Option Json := none
  kernelArguments : List String := []
  osImage : Option String := none
  fips : Bool := false

structure MachineConfig where
  metadata : Metadata := {}
  spec : MachineConfigSpec := {}

namespace MachineConfig

def specCodec : Codec MachineConfigSpec := .strict "MachineConfigSpec" {} [
  .of "config" (.optional .json) (·.config) fun r v => { r with config := v },
  .of "kernelArguments" (.list .string) (·.kernelArguments)
    fun r v => { r with kernelArguments := v },
  .of "osImageURL" (.optional .string) (·.osImage) fun r v => { r with osImage := v },
  .of "fips" .boolean (·.fips) fun r v => { r with fips := v }]

def fields : List (Field MachineConfig) := [
  .need "metadata" Metadata.codec (·.metadata) fun r v => { r with metadata := v },
  .need "spec" specCodec (·.spec) fun r v => { r with spec := v }]

end MachineConfig

namespace Ignition

structure Contents where
  source : Option String := none
deriving DecidableEq

structure File where
  path : String := ""
  contents : Contents := {}
  mode : Option UInt32 := none
deriving DecidableEq

structure Storage where
  files : List File := []
deriving DecidableEq

def contentsCodec : Codec Contents := .strict "IgnitionFileContents" {} [
  .of "source" (.optional .string) (·.source) fun r v => { r with source := v }]

def fileCodec : Codec File := .strict "IgnitionFile" {} [
  .need "path" .string (·.path) fun r v => { r with path := v },
  .of "contents" contentsCodec (·.contents) fun r v => { r with contents := v },
  .of "mode" (.optional .uint32) (·.mode) fun r v => { r with mode := v }]

def storageCodec : Codec Storage := .strict "IgnitionStorage" {} [
  .of "files" (.list fileCodec) (·.files) fun r v => { r with files := v }]

end Ignition

structure Ignition where
  storage : Ignition.Storage := {}
deriving DecidableEq

def Ignition.codec : Codec Ignition := .strict "IgnitionConfig" {} [
  .of "storage" storageCodec (·.storage) fun r v => { r with storage := v }]

namespace MachineConfig

/-- The machine config's Ignition document, which is empty if it has none. -/
def ignition (config : MachineConfig) : Except Json.Misfit Ignition :=
  match config.spec.config with
  | some document => Ignition.codec.ofJson document
  | none => .ok {}

/-- The first file that the machine config writes to a path. -/
def findFile (config : MachineConfig) (path : String) : Except Json.Misfit (Option Ignition.File) :=
  config.ignition.map fun ignition => ignition.storage.files.find? fun file => file.path = path

end MachineConfig

end NodeAudit
