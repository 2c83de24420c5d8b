import NodeAudit.Kubelet.Rendered
import NodeAudit.Proofs.Codec.Record
import NodeAudit.Proofs.Json.Restored
import NodeAudit.Proofs.Kubelet.Stripping

/-! What a payload asks of the configuration file, once the payload was read from text. -/
namespace NodeAudit.Kubelet
open Json

/-- The payload, if there is one, is what reading to a depth may give. -/
def PayloadReadable (depth : Nat) (spec : KubeletConfigSpec) : Prop :=
  ∀ payload, spec.kubeletConfig = some payload → Readable depth payload

theorem payload_blank (depth : Nat) : PayloadReadable depth {} := by
  intro payload none
  contradiction

theorem payload_spec {depth : Nat} {s rest : Bytes} {spec : KubeletConfigSpec}
    (passed : KubeletConfig.specCodec.read (depth + 1) s = .ok (spec,rest)) :
    PayloadReadable depth spec := by
  refine Codec.strict_preserves (payload_blank depth) ?_ passed
  simp only [List.forall_mem_cons]
  refine ⟨?_,?_,?_,?_,List.forall_mem_nil _⟩
  · exact Field.of_preserves fun _ _ _ _ start _ => start
  · exact Field.of_preserves fun _ _ _ _ start _ => start
  · exact Field.of_preserves fun _ _ _ _ start _ => start
  · refine Field.of_preserves fun _ found _ _ _ read payload given => ?_
    obtain rfl : found = some payload := given
    obtain ⟨none,-⟩ | ⟨_,⟨⟩,value⟩ := Codec.optional_ok read
    · contradiction
    · exact Read.readable_value value

/-- A payload stands two levels below the top of its resource, which leaves it the rest of the
depth that reading goes to. -/
theorem payload_resource {text : Bytes} {kubelet : KubeletConfig}
    (read : Kind.kubeletConfig.codec.parse text = .ok kubelet) :
    PayloadReadable 125 kubelet.spec := by
  obtain ⟨rest,passed,_⟩ := (Read.document_iff _ _ _).mp read
  refine @Codec.strict_preserves _ 126
    (fun kubelet : KubeletConfig => PayloadReadable 125 kubelet.spec) _ _ _ _ (payload_blank 125) ?_
    _ _ passed
  simp only [KubeletConfig.fields,List.forall_mem_cons]
  refine ⟨?_,?_,List.forall_mem_nil _⟩
  · exact Field.need_preserves fun _ _ _ _ start _ => start
  · exact Field.need_preserves fun _ _ _ _ _ spec => payload_spec spec

theorem mem_eraseSizing {α : Type} {map : SortedMap α} {member : String × α} :
    member ∈ (eraseSizing map).entries ↔ member.1 ∉ sizingFields ∧ member ∈ map.entries := by
  rw [← SortedMap.get?_eq_some_iff,get?_eraseSizing,← SortedMap.get?_eq_some_iff]
  split
  next sizing => simp [sizing]
  next other => rw [and_iff_right other]

theorem eraseSizing_relabel {α β : Type} (map : SortedMap α) (f : String × α → β) :
    eraseSizing (map.relabel f) = (eraseSizing map).relabel f := by
  refine SortedMap.ext_get? fun name => Option.ext fun b => ?_
  rw [get?_eraseSizing,SortedMap.get?_relabel,get?_eraseSizing]
  split
  next => simp
  next => exact SortedMap.get?_relabel map f name b

/-- An object whose values are written already, in the order of its names, keeps the text of each
value that does not size a node. -/
theorem withoutSizing_compactObject {raws : SortedMap Bytes}
    (proper : ∀ entry ∈ raws.entries, Proper entry.2) :
    withoutSizing (compactObject raws.entries) =
      .ok (compactObject (eraseSizing raws).entries) := by
  have object := object_compact (pairs_verbatim fun entry member => (proper entry member).1)
  have document := Document.parts Read.blanks_nil object Read.blanks_nil
  rw [List.nil_append,List.append_nil] at document
  have kept := (document_kept_iff _ _).mpr ⟨(proper_object proper).2,document⟩
  have read := (document_verbatimObject_iff _ _).mpr ⟨_,kept,rfl⟩
  rw [withoutSizing,read,SortedMap.ofList_entries]

/-- The compact text of an object is stripped to the compact text of the settings that are left. -/
theorem withoutSizing_compact (map : SortedMap Json) :
    withoutSizing (compact (.object map.entries)) =
      .ok (compact (.object (eraseSizing map).entries)) := by
  have entries (map : SortedMap Json) :
      compactMembers map.entries = (map.relabel fun member => compact member.2).entries :=
    compactMembers_eq_map _
  have proper := proper_members map.entries
  rw [entries] at proper
  rw [compact,compact,entries,entries,withoutSizing_compactObject proper,← eraseSizing_relabel]

/-- An object asks for each of its settings that does not size a node, with the numbers in it
restored. -/
theorem requested_object {depth : Nat} (bound : depth ≤ 126) {map : SortedMap Json}
    (readable : ∀ member ∈ map.entries, Readable depth member.2) :
    requested (.object map.entries) =
      .ok ((eraseSizing map).relabel fun member => renumber Number.restored member.2) := by
  have kept : Readable (depth + 1) (.object (eraseSizing map).entries) :=
    .object fun member given => readable member (mem_eraseSizing.mp given).2
  have back := parse_readable (Nat.succ_le_succ bound) kept
  rw [renumber_object,← parse_map_iff] at back
  rw [requested,withoutSizing_compact]
  show Except.mapError _ ((Codec.map .json).parse _) = _
  rw [back]
  rfl

theorem requested_error {payload : Json} {located : Located}
    (fails : Read.document verbatimObject (compact payload) = .error located) :
    requested payload = .error (.payloadDecode located) := by
  rw [requested,withoutSizing,fails]
  rfl

end NodeAudit.Kubelet
