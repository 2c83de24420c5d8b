import NodeAudit.Cluster
import NodeAudit.Codec.Basic
import NodeAudit.Codec.Record
import NodeAudit.CommandLine.Arguments
import NodeAudit.CommandLine.Run
import NodeAudit.Contents.Base64
import NodeAudit.Contents.DataUrl
import NodeAudit.Fault
import NodeAudit.Instant
import NodeAudit.Json.Cause
import NodeAudit.Json.Compact
import NodeAudit.Json.Lexeme
import NodeAudit.Json.Read
import NodeAudit.Json.Skip
import NodeAudit.Json.Value
import NodeAudit.Kubelet.Generated
import NodeAudit.Kubelet.Owner
import NodeAudit.Kubelet.Rendered
import NodeAudit.Main
import NodeAudit.Number.Binary64
import NodeAudit.Number.Decimal
import NodeAudit.Number.Shortest
import NodeAudit.Resource.Kind
import NodeAudit.Resource.KubeletConfig
import NodeAudit.Resource.MachineConfig
import NodeAudit.Resource.MachineConfigPool
import NodeAudit.Resource.Metadata
import NodeAudit.Scan
import NodeAudit.SortedMap
import NodeAudit.Text.Ascii
import NodeAudit.Text.Quoted
import NodeAudit.Text.Utf8
import NodeAudit.Trace
import NodeAudit.Yaml.Character
import NodeAudit.Yaml.Core
import NodeAudit.Yaml.Document
import NodeAudit.Yaml.Node
import NodeAudit.Yaml.Scalar
import NodeAudit.Yaml.Tag
import NodeAudit.Yaml.Token
import NodeAudit.Proofs.Kubelet.Newest
import NodeAudit.Proofs.Kubelet.Numbered
import NodeAudit.Proofs.Text.Utf8
import NodeAudit.Proofs.Json.Grammar
import NodeAudit.Proofs.Json.Lexeme
import NodeAudit.Proofs.SortedMap
import NodeAudit.Proofs.Json.Skip
import NodeAudit.Proofs.Json.Nesting
import NodeAudit.Proofs.Json.Encoding
import NodeAudit.Proofs.Json.Object
import NodeAudit.Proofs.Kubelet.Stripping
import NodeAudit.Proofs.Kubelet.StrippedReading
import NodeAudit.Proofs.Number.Rounding
import NodeAudit.Proofs.Number.Stepwise
import NodeAudit.Proofs.Number.Shortest
import NodeAudit.Proofs.Number.Trimmed
import NodeAudit.Proofs.Json.Numeral
import NodeAudit.Proofs.Json.Magnitude
import NodeAudit.Proofs.Json.Real
import NodeAudit.Proofs.Json.Compact
import NodeAudit.Proofs.Json.Array
import NodeAudit.Proofs.Json.Meaning
import NodeAudit.Proofs.Json.Agreement
import NodeAudit.Proofs.Json.Numbers
import NodeAudit.Proofs.Json.Paired
import NodeAudit.Proofs.Json.Readable
import NodeAudit.Proofs.Json.Restored
import NodeAudit.Proofs.Json.Spelled
import NodeAudit.Proofs.Instant
import NodeAudit.Proofs.Codec.Record
import NodeAudit.Proofs.Codec.Consumed
import NodeAudit.Proofs.Codec.Placed
import NodeAudit.Proofs.Codec.Restored
import NodeAudit.Proofs.Codec.Kept
import NodeAudit.Proofs.Codec.Slot
import NodeAudit.Proofs.Codec.Told
import NodeAudit.Proofs.Resource.Restored
import NodeAudit.Proofs.Contents.Base64
import NodeAudit.Proofs.Contents.DataUrl
import NodeAudit.Proofs.Contents.Scanned
import NodeAudit.Proofs.Contents.Strict
import NodeAudit.Proofs.Kubelet.Payload
import NodeAudit.Proofs.Kubelet.Canonical
import NodeAudit.Proofs.Kubelet.Sources
import NodeAudit.Proofs.Kubelet.Verdict
import NodeAudit.Proofs.Kubelet.Carried
import NodeAudit.Proofs.Kubelet.SameText
import NodeAudit.Proofs.Yaml.Words
import NodeAudit.Proofs.Yaml.Lines
import NodeAudit.Proofs.Yaml.Core
import NodeAudit.Proofs.Yaml.Mapping
import NodeAudit.Proofs.Kubelet.YamlFile
import NodeAudit.Proofs.Kubelet.Lookup
import NodeAudit.Proofs.Kubelet.Requeue
import NodeAudit.Proofs.Report
import NodeAudit.Proofs.Codec.Listed
import NodeAudit.Proofs.Ignition
import NodeAudit.Proofs.CommandLine.Words
import NodeAudit.Proofs.Roles
import NodeAudit.Proofs.CommandLine.ScanName
import NodeAudit.Proofs.CommandLine.StripSizing
import NodeAudit.Proofs.Json.Under
import NodeAudit.Proofs.Codec.Taken
import NodeAudit.Proofs.Pool
