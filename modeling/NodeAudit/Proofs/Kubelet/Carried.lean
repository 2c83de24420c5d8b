import NodeAudit.Proofs.Contents.DataUrl
import NodeAudit.Proofs.Kubelet.Verdict

/-! Settings that were written as compact text and put into a data URL are found in the configuration
file again, in either encoding and among whatever other settings. -/
namespace NodeAudit

theorem Number.canonical_restored (x : Number) :
    x.canonical.restored.canonical = x.restored.canonical := by
  cases x with
  | whole => rfl
  | real y =>
    cases zero : y.isZero with
    | false =>
      have same : y.canonical = y := by rw [Binary64.canonical,zero,if_neg Bool.false_ne_true]
      rw [canonical,same]
    | true =>
      obtain ⟨negative,magnitude⟩ := y
      obtain rfl : magnitude = Binary64.zero.magnitude := Fin.ext (beq_iff_eq.mp zero)
      cases negative with
      | false => decide +kernel
      | true => decide +kernel

namespace Kubelet
open Json

theorem payload_members {document : Bytes} {kubelet : KubeletConfig}
    (given : Kind.kubeletConfig.codec.parse document = .ok kubelet)
    {members : List (String × Json)} (asked : kubelet.spec.kubeletConfig = some (.object members)) :
    ∀ member ∈ members, Readable 124 member.2 := by
  cases payload_resource given _ asked with
  | object inside => exact inside

/-- How an object and a configuration file that holds an object are compared: by what the settings
are read as once they were written again. -/
theorem isRendered_parsed {document : Bytes} {kubelet : KubeletConfig}
    (given : Kind.kubeletConfig.codec.parse document = .ok kubelet)
    {members : List (String × Json)} (asked : kubelet.spec.kubeletConfig = some (.object members))
    {config : MachineConfig} {file : Bytes} (writes : Writes config file) {found : SortedMap Json}
    (parsed : Json.parse file = .ok (.object found.entries)) {b : Bool}
    (verdict : b = true ↔ ∀ member ∈ members, member.1 ∉ sizingFields →
      ∃ other, found.get? member.1 = some other ∧
        other.canonical = (renumber Number.restored member.2).canonical) :
    (isRendered kubelet config).outcome = .ok b := by
  have inside := payload_members given asked
  refine isRendered_of_verdict given (.compared asked writes (.inl ((parse_map_iff _ _).mpr parsed))
    (fun member given => ⟨_,parse_readable (by decide) (inside member given)⟩) (verdict.trans ?_))
  exact forall₂_congr fun member given => imp_congr_right fun _ =>
    (meets_iff (by decide) (inside member given) found member.1).symm

/-- Only the contents of the configuration file matter, not where they stand or how they are
encoded. -/
theorem isRendered_contents {kubelet : KubeletConfig} {config other : MachineConfig} {file : Bytes}
    (first : Writes config file) (second : Writes other file) :
    (isRendered kubelet config).outcome = (isRendered kubelet other).outcome := by
  cases asked : kubelet.spec.kubeletConfig with
  | none => rw [isRendered,isRendered,asked]
  | some payload =>
    rw [isRendered_steps asked,isRendered_steps asked,steps,steps,renderedFile_writes first,
      renderedFile_writes second]

/-- The first configuration file that a machine config writes has a source that bytes were put
into. -/
def Delivers (config : MachineConfig) (bytes : Bytes) : Prop :=
  ∃ ignition entry source, config.ignition = .ok ignition ∧ First ignition.storage.files entry ∧
    entry.contents.source = some source ∧ DataUrl.Carries source bytes

theorem writes_of_delivers {config : MachineConfig} {bytes : Bytes}
    (delivers : Delivers config bytes) : Writes config bytes := by
  obtain ⟨ignition,entry,source,reads,first,given,carries⟩ := delivers
  exact ⟨ignition,entry,source,reads,first,given,DataUrl.decode_carries carries⟩

theorem delivers_writing {source : String} {bytes : Bytes} (carries : DataUrl.Carries source bytes) :
    Delivers (writing source) bytes :=
  ⟨{ storage := { files := [{ path := configurationPath, contents := { source := some source } }] } },
    _,source,rfl,⟨[],[],rfl,List.forall_mem_nil _,rfl⟩,rfl,carries⟩

theorem delivers_percent {text : String} {keep : UInt8 → Bool} {bytes : Bytes}
    (escapes : keep Percent.sign = false) (encoded : Utf8.bytes text = Percent.encode keep bytes) :
    Delivers (writing (DataUrl.plainPrefix ++ text)) bytes :=
  delivers_writing (.plain (encoded ▸ Percent.encodes_encode escapes bytes))

/-- Whether settings agree with what a text asks for, if it is a kubelet config with an object. -/
def agreed (text : Bytes) (settings : SortedMap Json) : Bool :=
  match Kind.kubeletConfig.codec.parse text with
  | .ok { spec := { kubeletConfig := some (.object members), .. }, .. } =>
    members.all fun member => sizingFields.contains member.1 ||
      (settings.get? member.1).any (·.agrees member.2)
  | _ => false

theorem agreed_eq_true {text : Bytes} {settings : SortedMap Json}
    (agrees : agreed text settings = true) : ∃ kubelet members,
      Kind.kubeletConfig.codec.parse text = .ok kubelet ∧
      kubelet.spec.kubeletConfig = some (.object members) ∧
      ∀ member ∈ members, member.1 ∉ sizingFields →
        ∃ value, settings.get? member.1 = some value ∧ value.agrees member.2 = true := by
  rw [agreed] at agrees
  split at agrees
  next members read =>
    refine ⟨_,members,read,rfl,fun member inside other => ?_⟩
    have one := List.all_eq_true.mp agrees member inside
    simpa [other,Option.any_eq_true] using one
  next => contradiction

/-- For an object whose compact text is the configuration file: it is enough that it agrees with the
payload on each setting that does not size a node, and none of them may be missing. -/
theorem isRendered_compact {document : Bytes} {kubelet : KubeletConfig}
    (given : Kind.kubeletConfig.codec.parse document = .ok kubelet)
    {members : List (String × Json)} (asked : kubelet.spec.kubeletConfig = some (.object members))
    {settings : SortedMap Json} {depth : Nat} (proper : Readable depth (.object settings.entries))
    {back : Json} (reads : Json.parse (compact (.object settings.entries)) = .ok back)
    {config : MachineConfig} (delivers : Delivers config (compact (.object settings.entries))) :
    ((∀ member ∈ members, member.1 ∉ sizingFields →
        ∃ value, settings.get? member.1 = some value ∧ value.agrees member.2 = true) →
      (isRendered kubelet config).outcome = .ok true) ∧
    ((∃ member ∈ members, member.1 ∉ sizingFields ∧ settings.get? member.1 = none) →
      (isRendered kubelet config).outcome = .ok false) ∧
    ∀ other, Delivers other (compact (.object settings.entries)) →
      (isRendered kubelet other).outcome = (isRendered kubelet config).outcome := by
  have writes := writes_of_delivers delivers
  have parsed := reads
  rw [parse_compact proper reads,renumber_object] at parsed
  refine ⟨fun agreeing => ?_,fun missing => ?_,fun other again =>
    isRendered_contents (writes_of_delivers again) writes⟩
  · refine isRendered_parsed given asked writes parsed ⟨fun _ member inside other => ?_,fun _ => rfl⟩
    obtain ⟨value,found,agrees⟩ := agreeing member inside other
    refine ⟨_,(SortedMap.get?_relabel _ _ _ _).mpr ⟨value,found,rfl⟩,?_⟩
    exact canonical_renumber_congr Number.canonical_restored ((agrees_iff _ _).mp agrees)
  · refine isRendered_parsed given asked writes parsed ⟨fun impossible => by contradiction,
      fun each => ?_⟩
    obtain ⟨member,inside,other,none⟩ := missing
    obtain ⟨_,found,-⟩ := each member inside other
    obtain ⟨value,found,-⟩ := (SortedMap.get?_relabel _ _ _ _).mp found
    rw [none] at found
    contradiction

/-- Settings of which one is asked for. -/
def maxPodsAmongOthers : SortedMap Json :=
  ⟨[("eventRecordQPS",.number (.whole 5 (by decide))),("maxPods",.number (.whole 250 (by decide)))],
    by decide⟩

theorem isRendered_compact_among_others : ∃ kubelet,
    Kind.kubeletConfig.codec.parse maxPods = .ok kubelet ∧
    (isRendered kubelet (writing (DataUrl.plainPrefix ++
      "%7b%22eventRecordQPS%22:5,%22maxPods%22:250%7d"))).outcome = .ok true ∧
    (isRendered kubelet (writing (DataUrl.base64Prefix ++
      "eyJldmVudFJlY29yZFFQUyI6NSwibWF4UG9kcyI6MjUwfQ=="))).outcome = .ok true := by
  have agrees : agreed maxPods maxPodsAmongOthers = true := by decide +kernel
  obtain ⟨kubelet,members,given,asked,agreeing⟩ := agreed_eq_true agrees
  have proper : Readable 1 (.object maxPodsAmongOthers.entries) :=
    .object (List.forall_mem_cons.mpr ⟨.number,List.forall_mem_singleton.mpr .number⟩)
  have reads := parse_readable (by decide) proper
  have percent : Delivers (writing (DataUrl.plainPrefix ++
      "%7b%22eventRecordQPS%22:5,%22maxPods%22:250%7d"))
      (compact (.object maxPodsAmongOthers.entries)) :=
    @delivers_percent _ (fun b => !(word "%\"\x7b\x7d").contains b) _ (by decide)
      (by decide +kernel)
  have base64 : Delivers (writing (DataUrl.base64Prefix ++
      "eyJldmVudFJlY29yZFFQUyI6NSwibWF4UG9kcyI6MjUwfQ=="))
      (compact (.object maxPodsAmongOthers.entries)) :=
    delivers_writing (.base64 (by decide +kernel))
  obtain ⟨rendered,-,same⟩ := isRendered_compact given asked proper reads percent
  exact ⟨kubelet,given,rendered agreeing,(same _ base64).trans (rendered agreeing)⟩

end Kubelet
end NodeAudit
