import NodeAudit.Proofs.Codec.Told

/-! Resources are read back from what they are written as. Numbers with a fraction may drift in the
parts of a resource that are kept as any value, and time stamps lose the fraction of a second; a
resource without either comes back as it was. -/
namespace NodeAudit
open Json Codec

section
variable {α : Type} {codec : Codec α} {depth : Nat}

theorem restores_optional (each : ∀ a, codec.Restores depth a) (solid : ∀ a, codec.toJson a ≠ .null)
    (o : Option α) : codec.optional.Restores depth o :=
  optional_restores fun a _ => ⟨each a,solid a⟩

theorem restores_list (each : ∀ a, codec.Restores depth a) (items : List α) :
    codec.list.Restores (depth + 1) items := list_restores fun a _ => each a

theorem restores_map (each : ∀ a, codec.Restores depth a) (map : SortedMap α) :
    codec.map.Restores (depth + 1) map := map_restores fun entry _ => each entry.2

theorem optional_json_restores {o : Option Json} (made : json.optional.Made depth o)
    (whole : ∀ v ∈ o, v.Integral) : json.optional.Restores depth o := by
  refine optional_restores fun v given => ?_
  obtain rfl := Option.mem_def.mp given
  exact ⟨json_restores (json_made (optional_made made)) (whole v given),json_optional_made made⟩

theorem optional_instant_restores {o : Option Instant} (made : instant.optional.Made depth o)
    (seconds : ∀ t ∈ o, t.nanosecond = 0) : instant.optional.Restores depth o := by
  refine optional_restores fun t given => ?_
  obtain rfl := Option.mem_def.mp given
  obtain ⟨dated,year⟩ := instant_made (optional_made made)
  exact ⟨instant_restores dated year (seconds t given),nofun⟩

end

-- What a layout leaves open is told by the fields of the codec, which `same` compares it with.

def OwnerReference.laid : Laid .lenient OwnerReference.codec where
  shape := rfl
  layout := {
    slots := [.filled "apiVersion" .string (·.apiVersion) fun r v => { r with apiVersion := v },
      .maybe _ _ _ _,.maybe _ _ _ _,
      .filled "kind" .string (·.kind) fun r v => { r with kind := v },
      .filled "name" .string (·.name) fun r v => { r with name := v },
      .filled "uid" .string (·.uid) fun r v => { r with uid := v }]
    same := rfl }

def ObjectReference.laid : Laid .lenient ObjectReference.codec where
  shape := rfl
  layout := {
    slots := [.maybe _ _ _ _,.maybe _ _ _ _,.maybe _ _ _ _,.maybe _ _ _ _,.maybe _ _ _ _,
      .maybe _ _ _ _,.maybe _ _ _ _]
    same := rfl }

def LabelRequirement.laid : Laid .lenient LabelRequirement.codec where
  shape := rfl
  layout := {
    slots := [.filled "key" .string (·.key) fun r v => { r with key := v },
      .filled "operator" .string (·.operator) fun r v => { r with operator := v },
      .maybe _ _ _ _]
    same := rfl }

def LabelSelector.laid : Laid .lenient LabelSelector.codec where
  shape := rfl
  layout := {
    slots := [.maybe _ _ _ _,.maybe _ _ _ _]
    same := rfl }

def ManagedFields.laid : Laid .lenient ManagedFields.codec where
  shape := rfl
  layout := {
    slots := [.maybe _ _ _ _,.maybe _ _ _ _,.maybe _ _ _ _,.maybe _ _ _ _,.maybe _ _ _ _,
      .maybe _ _ _ _,.maybe _ _ _ _]
    same := rfl }

def Metadata.laid : Laid .lenient Metadata.codec where
  shape := rfl
  layout := {
    slots := [.maybe _ _ _ _,.maybe _ _ _ _,.maybe _ _ _ _,.maybe _ _ _ _,.maybe _ _ _ _,
      .maybe _ _ _ _,.maybe _ _ _ _,.maybe _ _ _ _,.maybe _ _ _ _,.maybe _ _ _ _,
      .maybe _ _ _ _,.maybe _ _ _ _,.maybe _ _ _ _,.maybe _ _ _ _,.maybe _ _ _ _]
    same := rfl }

namespace MachineConfigPool

def configurationLaid : Laid .strict configurationCodec where
  shape := rfl
  layout := {
    slots := [.of _ _ _ _,.of _ _ _ _]
    same := rfl }

def specLaid : Laid .strict specCodec where
  shape := rfl
  layout := {
    slots := [.of _ _ _ _,.of _ _ _ _,.of _ _ _ _,.of _ _ _ _]
    same := rfl }

def layout : Layout fields where
  slots := [.need _ _ _ _,.need _ _ _ _]
  same := rfl

end MachineConfigPool

namespace MachineConfig

def specLaid : Laid .strict specCodec where
  shape := rfl
  layout := {
    slots := [.of _ _ _ _,.of _ _ _ _,.of _ _ _ _,.of _ _ _ _]
    same := rfl }

def layout : Layout fields where
  slots := [.need _ _ _ _,.need _ _ _ _]
  same := rfl

end MachineConfig

namespace KubeletConfig

def specLaid : Laid .strict specCodec where
  shape := rfl
  layout := {
    slots := [.of _ _ _ _,.of _ _ _ _,.of _ _ _ _,.of _ _ _ _]
    same := rfl }

def layout : Layout fields where
  slots := [.need _ _ _ _,.need _ _ _ _]
  same := rfl

end KubeletConfig

section
variable {depth : Nat}

theorem OwnerReference.codec_restores (owner : OwnerReference) :
    OwnerReference.codec.Restores (depth + 1) owner := by
  have text := restores_optional (string_restores depth) nofun
  have flag := restores_optional (boolean_restores depth) nofun
  refine OwnerReference.laid.restores ?_
  simp only [OwnerReference.laid,List.forall_mem_cons]
  exact ⟨Slot.filled_restores (text _),Slot.maybe_restores rfl (flag _),
    Slot.maybe_restores rfl (flag _),Slot.filled_restores (text _),Slot.filled_restores (text _),
    Slot.filled_restores (text _),List.forall_mem_nil _⟩

theorem ObjectReference.codec_restores (reference : ObjectReference) :
    ObjectReference.codec.Restores (depth + 1) reference := by
  have text := restores_optional (string_restores depth) nofun
  refine ObjectReference.laid.restores ?_
  simp only [ObjectReference.laid,List.forall_mem_cons]
  exact ⟨Slot.maybe_restores rfl (text _),Slot.maybe_restores rfl (text _),
    Slot.maybe_restores rfl (text _),Slot.maybe_restores rfl (text _),
    Slot.maybe_restores rfl (text _),Slot.maybe_restores rfl (text _),
    Slot.maybe_restores rfl (text _),List.forall_mem_nil _⟩

theorem LabelRequirement.codec_restores (requirement : LabelRequirement) :
    LabelRequirement.codec.Restores (depth + 2) requirement := by
  have text := restores_optional (string_restores (depth + 1)) nofun
  have texts := restores_optional (restores_list (string_restores depth)) nofun
  refine LabelRequirement.laid.restores ?_
  simp only [LabelRequirement.laid,List.forall_mem_cons]
  exact ⟨Slot.filled_restores (text _),Slot.filled_restores (text _),
    Slot.maybe_restores rfl (texts _),List.forall_mem_nil _⟩

theorem LabelSelector.codec_restores (selector : LabelSelector) :
    LabelSelector.codec.Restores (depth + 4) selector := by
  have requirements := restores_optional
    (restores_list (@LabelRequirement.codec_restores depth)) nofun
  have labels := restores_optional (restores_map (string_restores (depth + 2))) nofun
  refine LabelSelector.laid.restores ?_
  simp only [LabelSelector.laid,List.forall_mem_cons]
  exact ⟨Slot.maybe_restores rfl (requirements _),Slot.maybe_restores rfl (labels _),
    List.forall_mem_nil _⟩

theorem PoolConfiguration.codec_restores (configuration : PoolConfiguration) :
    MachineConfigPool.configurationCodec.Restores (depth + 3) configuration := by
  have name := restores_optional (string_restores (depth + 2)) nofun
  have source := restores_list (@ObjectReference.codec_restores depth)
  refine MachineConfigPool.configurationLaid.restores ?_
  simp only [MachineConfigPool.configurationLaid,List.forall_mem_cons]
  exact ⟨Slot.of_restores (name _),Slot.of_restores (source _),List.forall_mem_nil _⟩

theorem PoolSpec.codec_restores (spec : PoolSpec) :
    MachineConfigPool.specCodec.Restores (depth + 5) spec := by
  have selector := restores_optional (@LabelSelector.codec_restores depth) nofun
  refine MachineConfigPool.specLaid.restores ?_
  simp only [MachineConfigPool.specLaid,List.forall_mem_cons]
  exact ⟨Slot.of_restores (selector _),Slot.of_restores (selector _),
    Slot.of_restores (boolean_restores _ _),Slot.of_restores (PoolConfiguration.codec_restores _),
    List.forall_mem_nil _⟩

end

/-- Writing loses nothing of the record: no number that it keeps has a floating point, and no time
stamp has a part of a second. -/
@[mk_iff] structure ManagedFields.Lossless (entry : ManagedFields) : Prop where
  fields : ∀ v ∈ entry.fields, v.Integral
  time : ∀ t ∈ entry.time, t.nanosecond = 0

instance : DecidablePred ManagedFields.Lossless :=
  fun entry => decidable_of_iff' _ (ManagedFields.lossless_iff entry)

@[mk_iff] structure Metadata.Lossless (metadata : Metadata) : Prop where
  created : ∀ t ∈ metadata.creationTimestamp, t.nanosecond = 0
  deleted : ∀ t ∈ metadata.deletionTimestamp, t.nanosecond = 0
  managed : ∀ entries ∈ metadata.managedFields, ∀ entry ∈ entries, entry.Lossless

instance : DecidablePred Metadata.Lossless :=
  fun metadata => decidable_of_iff' _ (Metadata.lossless_iff metadata)

section
variable {depth : Nat}

theorem ManagedFields.codec_restores {entry : ManagedFields}
    (made : ManagedFields.codec.Made (depth + 1) entry) (lossless : entry.Lossless) :
    ManagedFields.codec.Restores (depth + 1) entry := by
  have got := ManagedFields.laid.got made
  simp only [ManagedFields.laid,List.forall_mem_cons] at got
  obtain ⟨-,-,fields,-,-,-,time,-⟩ := got
  have text := restores_optional (string_restores depth) nofun
  have fields := optional_json_restores (Slot.maybe_got fields (optional_none_made _ _))
    lossless.fields
  have time := optional_instant_restores (Slot.maybe_got time (optional_none_made _ _))
    lossless.time
  refine ManagedFields.laid.restores ?_
  simp only [ManagedFields.laid,List.forall_mem_cons]
  exact ⟨Slot.maybe_restores rfl (text _),Slot.maybe_restores rfl (text _),
    Slot.maybe_restores rfl fields,Slot.maybe_restores rfl (text _),
    Slot.maybe_restores rfl (text _),Slot.maybe_restores rfl (text _),
    Slot.maybe_restores rfl time,List.forall_mem_nil _⟩

theorem managed_restores {o : Option (List ManagedFields)}
    (made : ManagedFields.codec.list.optional.Made (depth + 2) o)
    (lossless : ∀ entries ∈ o, ∀ entry ∈ entries, entry.Lossless) :
    ManagedFields.codec.list.optional.Restores (depth + 2) o := by
  refine optional_restores fun entries given => ⟨?_,nofun⟩
  obtain rfl := Option.mem_def.mp given
  have each := list_made (optional_made made)
  exact list_restores fun entry member =>
    ManagedFields.codec_restores (each entry member) (lossless entries given entry member)

theorem Metadata.codec_restores {metadata : Metadata}
    (made : Metadata.codec.Made (depth + 3) metadata) (lossless : metadata.Lossless) :
    Metadata.codec.Restores (depth + 3) metadata := by
  have got := Metadata.laid.got made
  simp only [Metadata.laid,List.forall_mem_cons] at got
  obtain ⟨-,created,-,deleted,-,-,-,-,managed,-⟩ := got
  have text := restores_optional (string_restores (depth + 2)) nofun
  have count := restores_optional (int64_restores (depth + 2)) nofun
  have texts := restores_optional (restores_list (string_restores (depth + 1))) nofun
  have labels := restores_optional (restores_map (string_restores (depth + 1))) nofun
  have owners := restores_optional
    (restores_list (@OwnerReference.codec_restores depth)) nofun
  have created := optional_instant_restores (Slot.maybe_got created (optional_none_made _ _))
    lossless.created
  have deleted := optional_instant_restores (Slot.maybe_got deleted (optional_none_made _ _))
    lossless.deleted
  have managed := managed_restores (Slot.maybe_got managed (optional_none_made _ _))
    lossless.managed
  refine Metadata.laid.restores ?_
  simp only [Metadata.laid,List.forall_mem_cons]
  exact ⟨Slot.maybe_restores rfl (labels _),Slot.maybe_restores rfl created,
    Slot.maybe_restores rfl (count _),Slot.maybe_restores rfl deleted,
    Slot.maybe_restores rfl (texts _),Slot.maybe_restores rfl (text _),
    Slot.maybe_restores rfl (count _),Slot.maybe_restores rfl (labels _),
    Slot.maybe_restores rfl managed,Slot.maybe_restores rfl (text _),
    Slot.maybe_restores rfl (text _),Slot.maybe_restores rfl (owners _),
    Slot.maybe_restores rfl (text _),Slot.maybe_restores rfl (text _),
    Slot.maybe_restores rfl (text _),List.forall_mem_nil _⟩

theorem MachineConfigSpec.codec_restores {spec : MachineConfigSpec}
    (made : MachineConfig.specCodec.Made (depth + 2) spec)
    (whole : ∀ v ∈ spec.config, v.Integral) :
    MachineConfig.specCodec.Restores (depth + 2) spec := by
  have got := MachineConfig.specLaid.got made
  simp only [MachineConfig.specLaid,List.forall_mem_cons] at got
  have config := optional_json_restores (Slot.of_got got.1 (optional_none_made _ _)) whole
  have arguments := restores_list (string_restores depth)
  have image := restores_optional (string_restores (depth + 1)) nofun
  refine MachineConfig.specLaid.restores ?_
  simp only [MachineConfig.specLaid,List.forall_mem_cons]
  exact ⟨Slot.of_restores config,Slot.of_restores (arguments _),Slot.of_restores (image _),
    Slot.of_restores (boolean_restores _ _),List.forall_mem_nil _⟩

theorem KubeletConfigSpec.codec_restores {spec : KubeletConfigSpec}
    (made : KubeletConfig.specCodec.Made (depth + 5) spec)
    (whole : ∀ v ∈ spec.kubeletConfig, v.Integral) :
    KubeletConfig.specCodec.Restores (depth + 5) spec := by
  have got := KubeletConfig.specLaid.got made
  simp only [KubeletConfig.specLaid,List.forall_mem_cons] at got
  obtain ⟨-,-,-,config,-⟩ := got
  have config := optional_json_restores (Slot.of_got config (optional_none_made _ _)) whole
  have flag := restores_optional (boolean_restores (depth + 4)) nofun
  have level := restores_optional (int32_restores (depth + 4)) nofun
  have selector := restores_optional (@LabelSelector.codec_restores depth) nofun
  refine KubeletConfig.specLaid.restores ?_
  simp only [KubeletConfig.specLaid,List.forall_mem_cons]
  exact ⟨Slot.of_restores (flag _),Slot.of_restores (level _),Slot.of_restores (selector _),
    Slot.of_restores config,List.forall_mem_nil _⟩

theorem blank_made {α : Type} {codec : Codec α} {blank : α}
    (given : codec.ofJson (.object []) = .ok blank) : codec.Made (depth + 1) blank :=
  .inr ⟨.object [],@Readable.object depth .empty (List.forall_mem_nil _),given⟩

/-- A resource of metadata and a spec is given back as soon as these two are. Both are read from an
empty object as they are at first. -/
theorem resource_of_parts {ρ σ : Type} {kind : Kind} {blank r : ρ} {fields : List (Field ρ)}
    {codec : Codec σ} {metadata : ρ → Metadata} {spec : ρ → σ} {first : ρ → Metadata → ρ}
    {second : ρ → σ → ρ} {one : ∀ x a, metadata (first x a) = a}
    {two : ∀ x a, spec (second x a) = a}
    (layout : Layout fields) (shape : layout.slots =
      [.need "metadata" Metadata.codec metadata first one,.need "spec" codec spec second two])
    (bare : Metadata.codec.ofJson (.object []) = .ok (metadata blank))
    (plain : codec.ofJson (.object []) = .ok (spec blank))
    (above : ∀ field ∈ fields, "kind" < field.name)
    (made : (Codec.resource kind blank fields).Made (depth + 6) r)
    (lossless : (metadata r).Lossless)
    (back : codec.Made (depth + 5) (spec r) → codec.Restores (depth + 5) (spec r)) :
    (Codec.resource kind blank fields).Restores (depth + 6) r := by
  have got := strict_got layout made
  rw [shape] at got
  simp only [List.forall_mem_cons] at got
  have metadata := Metadata.codec_restores (Slot.need_got got.1 (blank_made bare)) lossless
  have spec := back (Slot.need_got got.2.1 (blank_made plain))
  refine resource_restores layout above ?_ kind
  rw [shape]
  simp only [List.forall_mem_cons]
  exact ⟨Slot.need_restores metadata,Slot.need_restores spec,List.forall_mem_nil _⟩

end

namespace Kind

/-- A document gives a resource, either at once or by way of its value. -/
def Gives (kind : Kind) (document : Bytes) (resource : kind.Resource) : Prop :=
  kind.codec.parse document = .ok resource ∨
    ∃ v, Json.parse document = .ok v ∧ kind.codec.ofJson v = .ok resource

/-- Writing loses nothing of the resource: no number in the parts of it that are kept as any value
has a floating point, and no time stamp has a part of a second. -/
def Lossless : (kind : Kind) → kind.Resource → Prop
  | .machineConfigPool, pool => pool.metadata.Lossless
  | .machineConfig, config => config.metadata.Lossless ∧ ∀ v ∈ config.spec.config, v.Integral
  | .kubeletConfig, config =>
    config.metadata.Lossless ∧ ∀ v ∈ config.spec.kubeletConfig, v.Integral

instance (kind : Kind) (resource : kind.Resource) : Decidable (kind.Lossless resource) :=
  match kind with
  | .machineConfigPool => inferInstanceAs (Decidable (Metadata.Lossless _))
  | .machineConfig | .kubeletConfig => inferInstanceAs (Decidable (Metadata.Lossless _ ∧ _))

variable {kind : Kind} {document : Bytes} {resource : kind.Resource}

theorem gives_made (gives : kind.Gives document resource) :
    kind.codec.Made Read.depth resource := by
  obtain direct | ⟨v,value,given⟩ := gives
  · obtain ⟨rest,read,-⟩ := (Read.document_iff _ _ _).mp direct
    exact .inl ⟨document,rest,read⟩
  · obtain ⟨_,text,_,-,means,-⟩ := (parse_iff document v).mp value
    exact .inr ⟨v,means_readable means,given⟩

theorem codec_restores (gives : kind.Gives document resource) (lossless : kind.Lossless resource) :
    kind.codec.Restores Read.depth resource := by
  have made : kind.codec.Made (121 + 6) resource := gives_made gives
  cases kind with
  | machineConfigPool =>
    exact resource_of_parts MachineConfigPool.layout rfl rfl rfl (by decide) made lossless
      fun _ => PoolSpec.codec_restores _
  | machineConfig =>
    exact resource_of_parts MachineConfig.layout rfl rfl rfl (by decide) made lossless.1
      fun made => MachineConfigSpec.codec_restores made lossless.2
  | kubeletConfig =>
    exact resource_of_parts KubeletConfig.layout rfl rfl rfl (by decide) made lossless.1
      fun made => KubeletConfigSpec.codec_restores made lossless.2

/-- A resource that loses nothing in writing is given back by the value and by every text that it is
written as, so that writing it once more changes nothing. -/
theorem read_written (gives : kind.Gives document resource) (lossless : kind.Lossless resource) :
    kind.codec.ofJson (kind.codec.toJson resource) = .ok resource ∧
      ∀ text, Spelled text (kind.codec.toJson resource) →
        kind.codec.parse text = .ok resource ∧
        Json.parse text = .ok (kind.codec.toJson resource) := by
  have restores := codec_restores gives lossless
  refine ⟨restores.value,fun text spelled => ⟨?_,?_⟩⟩
  · have ends := Read.delimited_blanks Read.blanks_nil
    have read := restores.text [] text [] Read.blanks_nil spelled ends
    rw [List.nil_append,List.append_nil] at read
    exact (Read.document_iff _ _ _).mpr ⟨[],read,Read.blanks_nil⟩
  · exact parse_means (Nat.le_refl _) (restores.steady text spelled)

/-- What a document's resource is written as, if nothing is lost. -/
def rewritten? (kind : Kind) (document : Bytes) : Option Bytes :=
  match kind.codec.parse document with
  | .ok resource =>
    if kind.Lossless resource then some (compact (kind.codec.toJson resource)) else none
  | .error _ => none

theorem rewritten?_some {text : Bytes} (rewritten : rewritten? kind document = some text) :
    ∃ resource, kind.codec.parse document = .ok resource ∧ kind.Lossless resource ∧
      compact (kind.codec.toJson resource) = text := by
  rw [rewritten?] at rewritten
  split at rewritten
  next resource given =>
    split at rewritten
    next lossless => exact ⟨resource,given,lossless,Option.some.inj rewritten⟩
    next => contradiction
  next => contradiction

/-- Records by position, with a name that comes twice, a field of null, one that is unknown and
others that are empty. -/
def positional : Bytes :=
  word "[\x7b\"name\":\"a\",\"labels\":\x7b\x7d,\"uid\":null,\"color\":[0.5],\"finalizers\":[]," ++
  word "\"name\":\"b\",\"creationTimestamp\":\"2024-02-29T23:59:59Z\"\x7d," ++
  word "[\x7b\"k\":1,\"k\":[null,2]\x7d,[],null]]"

/-- The same resource as it is written. -/
def named : Bytes :=
  word "\x7b\"apiVersion\":\"machineconfiguration.openshift.io/v1\",\"kind\":\"MachineConfig\"," ++
  word "\"metadata\":\x7b\"creationTimestamp\":\"2024-02-29T23:59:59Z\",\"finalizers\":[]," ++
  word "\"labels\":\x7b\x7d,\"name\":\"b\"\x7d,\"spec\":\x7b\"config\":\x7b\"k\":[null,2]\x7d," ++
  word "\"fips\":false,\"kernelArguments\":[],\"osImageURL\":null\x7d\x7d"

theorem read_written_positional : ∃ config : MachineConfig,
    machineConfig.codec.parse positional = .ok config ∧ machineConfig.Lossless config ∧
    compact (machineConfig.codec.toJson config) = named ∧
    machineConfig.codec.parse named = .ok config := by
  have rewritten : machineConfig.rewritten? positional = some named := by decide +kernel
  obtain ⟨config,given,lossless,text⟩ := rewritten?_some rewritten
  have again := ((read_written (.inl given) lossless).2 _ (spelled_compact _)).1
  exact ⟨config,given,lossless,text,text ▸ again⟩

end Kind
end NodeAudit
