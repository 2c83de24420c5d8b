import NodeAudit.Codec.Record
import NodeAudit.Instant

/-! What every resource says of itself, and how resources refer to and select one another. -/
namespace NodeAudit

structure OwnerReference where
  apiVersion : String := ""
  blockOwnerDeletion : Option Bool := none
  controller : Option Bool := none
  kind : String := ""
  name : String := ""
  uid : String := ""
deriving DecidableEq

namespace OwnerReference

def codec : Codec OwnerReference := .lenient "OwnerReference" {} [
  .filled "apiVersion" .string (·.apiVersion) fun r v => { r with apiVersion := v },
  .maybe "blockOwnerDeletion" .boolean (·.blockOwnerDeletion)
    fun r v => { r with blockOwnerDeletion := v },
  .maybe "controller" .boolean (·.controller) fun r v => { r with controller := v },
  .filled "kind" .string (·.kind) fun r v => { r with kind := v },
  .filled "name" .string (·.name) fun r v => { r with name := v },
  .filled "uid" .string (·.uid) fun r v => { r with uid := v }]

end OwnerReference

structure ObjectReference where
  apiVersion : Option String := none
  fieldPath : Option String := none
  kind : Option String := none
  name : Option String := none
  withinNamespace : Option String := none
  resourceVersion : Option String := none
  uid : Option String := none
deriving DecidableEq

namespace ObjectReference

def codec : Codec ObjectReference := .lenient "ObjectReference" {} [
  .maybe "apiVersion" .string (·.apiVersion) fun r v => { r with apiVersion := v },
  .maybe "fieldPath" .string (·.fieldPath) fun r v => { r with fieldPath := v },
  .maybe "kind" .string (·.kind) fun r v => { r with kind := v },
  .maybe "name" .string (·.name) fun r v => { r with name := v },
  .maybe "namespace" .string (·.withinNamespace) fun r v => { r with withinNamespace := v },
  .maybe "resourceVersion" .string (·.resourceVersion) fun r v => { r with resourceVersion := v },
  .maybe "uid" .string (·.uid) fun r v => { r with uid := v }]

end ObjectReference

structure LabelRequirement where
  key : String := ""
  operator : String := ""
  values : Option (List String) := none
deriving DecidableEq

namespace LabelRequirement

def codec : Codec LabelRequirement := .lenient "LabelSelectorRequirement" {} [
  .filled "key" .string (·.key) fun r v => { r with key := v },
  .filled "operator" .string (·.operator) fun r v => { r with operator := v },
  .maybe "values" (.list .string) (·.values) fun r v => { r with values := v }]

end LabelRequirement

structure LabelSelector where
  matchExpressions : Option (List LabelRequirement) := none
  matchLabels : Option Labels := none
deriving DecidableEq

namespace LabelSelector

def codec : Codec LabelSelector := .lenient "LabelSelector" {} [
  .maybe "matchExpressions" (.list LabelRequirement.codec) (·.matchExpressions)
    fun r v => { r with matchExpressions := v },
  .maybe "matchLabels" (.map .string) (·.matchLabels) fun r v => { r with matchLabels := v }]

end LabelSelector

structure ManagedFields where
  apiVersion : Option String := none
  fieldsType : Option String := none
  fields : Option Json := none
  manager : Option String := none
  operation : Option String := none
  subresource : Option String := none
  time : Option Instant := none

namespace ManagedFields

def codec : Codec ManagedFields := .lenient "ManagedFieldsEntry" {} [
  .maybe "apiVersion" .string (·.apiVersion) fun r v => { r with apiVersion := v },
  .maybe "fieldsType" .string (·.fieldsType) fun r v => { r with fieldsType := v },
  .maybe "fieldsV1" .json (·.fields) fun r v => { r with fields := v },
  .maybe "manager" .string (·.manager) fun r v => { r with manager := v },
  .maybe "operation" .string (·.operation) fun r v => { r with operation := v },
  .maybe "subresource" .string (·.subresource) fun r v => { r with subresource := v },
  .maybe "time" .instant (·.time) fun r v => { r with time := v }]

end ManagedFields

structure Metadata where
  annotations : Option Labels := none
  creationTimestamp : Option Instant := none
  deletionGracePeriodSeconds : Option Int64 := none
  deletionTimestamp : Option Instant := none
  finalizers : Option (List String) := none
  generateName : Option String := none
  generation : Option Int64 := none
  labels : Option Labels := none
  managedFields : Option (List ManagedFields) := none
  name : Option String := none
  withinNamespace : Option String := none
  ownerReferences : Option (List OwnerReference) := none
  resourceVersion : Option String := none
  selfLink : Option String := none
  uid : Option String := none

namespace Metadata

def codec : Codec Metadata := .lenient "ObjectMeta" {} [
  .maybe "annotations" (.map .string) (·.annotations) fun r v => { r with annotations := v },
  .maybe "creationTimestamp" .instant (·.creationTimestamp)
    fun r v => { r with creationTimestamp := v },
  .maybe "deletionGracePeriodSeconds" .int64 (·.deletionGracePeriodSeconds)
    fun r v => { r with deletionGracePeriodSeconds := v },
  .maybe "deletionTimestamp" .instant (·.deletionTimestamp)
    fun r v => { r with deletionTimestamp := v },
  .maybe "finalizers" (.list .string) (·.finalizers) fun r v => { r with finalizers := v },
  .maybe "generateName" .string (·.generateName) fun r v => { r with generateName := v },
  .maybe "generation" .int64 (·.generation) fun r v => { r with generation := v },
  .maybe "labels" (.map .string) (·.labels) fun r v => { r with labels := v },
  .maybe "managedFields" (.list ManagedFields.codec) (·.managedFields)
    fun r v => { r with managedFields := v },
  .maybe "name" .string (·.name) fun r v => { r with name := v },
  .maybe "namespace" .string (·.withinNamespace) fun r v => { r with withinNamespace := v },
  .maybe "ownerReferences" (.list OwnerReference.codec) (·.ownerReferences)
    fun r v => { r with ownerReferences := v },
  .maybe "resourceVersion" .string (·.resourceVersion) fun r v => { r with resourceVersion := v },
  .maybe "selfLink" .string (·.selfLink) fun r v => { r with selfLink := v },
  .maybe "uid" .string (·.uid) fun r v => { r with uid := v }]

def owner? (metadata : Metadata) : Option OwnerReference :=
  metadata.ownerReferences.bind (·.head?)

/-- The name, or the stem that a name is generated from, or nothing. -/
def anyName (metadata : Metadata) : String :=
  (metadata.name.or metadata.generateName).getD ""

end Metadata
end NodeAudit
