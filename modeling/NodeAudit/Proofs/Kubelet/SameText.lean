import NodeAudit.Proofs.Codec.Consumed
import NodeAudit.Proofs.Codec.Placed
import NodeAudit.Proofs.Kubelet.Carried

/-! A configuration file with the very text that a kubelet config asks for. The text is read once
from the file, but once more for the kubelet config after it was written again, so that a
floating-point number in it may keep the file from being recognized. -/
namespace NodeAudit

/-- Whether a number is read from its compact text as one that agrees with it. -/
def Number.survives (x : Number) : Bool :=
  match Json.parse (Json.compactNumber x) with
  | .ok (.number y) => y.agrees x
  | _ => false

theorem Number.survives_iff (x : Number) :
    x.survives = true ↔ x.restored.canonical = x.canonical := by
  rw [survives,Json.parse_means (Nat.zero_le _) (Json.means_compactNumber x)]
  exact agrees_iff _ _

/-- Every number that is not a floating-point one survives. -/
theorem Number.survives_whole (i : Int)
    (bounded : -9223372036854775808 ≤ i ∧ i < 18446744073709551616) :
    (Number.whole i bounded).survives = true := by
  rw [survives_iff,Json.restored_whole]

namespace Kubelet
open Json

/-- A text stands as the payload in the text of a kubelet config. -/
inductive Stands (t : Bytes) : Bytes → Prop where
  | inside {before spec s after : Bytes} (first : Blanks before) (outer : Gives "spec" 1 spec s)
      (inner : Gives "kubeletConfig" 3 t spec) (second : Blanks after) :
      Stands t (before ++ (s ++ after))

/-- What is read as an optional value is null or has the meaning of its text. -/
theorem optional_json_sound {depth : Nat} {s rest : Bytes} {found : Option Json}
    (passed : Codec.json.optional.read depth s = .ok (found,rest)) : ∃ before v, Blanks before ∧
      Means depth v (found.getD .null) ∧ s = before ++ (v ++ rest) := by
  obtain ⟨before,blanks,whole⟩ := Read.skipBlanks_split s
  obtain ⟨rfl,null⟩ | ⟨a,rfl,read⟩ := Codec.optional_ok passed
  · exact ⟨before,_,blanks,means_mono (Nat.zero_le _) (show Means 0 _ _ from .null),by
      rw [whole,null]⟩
  · obtain ⟨gap,v,gaps,means,split⟩ := (Read.reads_value depth).sound _ _ _ read
    exact ⟨before ++ gap,v,Read.blanks_append blanks gaps,means,by
      rw [whole,split,List.append_assoc]⟩

/-- The payload is a value, or missing if that is null. -/
def Asks (payload : Json) (spec : KubeletConfigSpec) : Prop :=
  spec.kubeletConfig.getD .null = payload

theorem asks_spec {t : Bytes} {payload : Json} (reads : Json.parse t = .ok payload)
    {before spec rest left : Bytes} {found : KubeletConfigSpec} (blanks : Blanks before)
    (inner : Gives "kubeletConfig" 3 t spec)
    (passed : KubeletConfig.specCodec.read 126 (before ++ (spec ++ rest)) = .ok (found,left)) :
    Asks payload found := by
  refine Codec.strict_gives blanks inner passed (by rfl) (by rfl) (by decide)
    (by simp [LabelSelector.codec_consumes]) ?_ ?_
  · simp only [List.forall_mem_cons]
    refine ⟨fun _ => ?_,fun _ => ?_,fun _ => ?_,fun same => absurd rfl same,List.forall_mem_nil _⟩
    · exact Field.of_preserves fun _ _ _ _ start _ => start
    · exact Field.of_preserves fun _ _ _ _ start _ => start
    · exact Field.of_preserves fun _ _ _ _ start _ => start
  · intro record next gap rest gaps delimited passed
    obtain ⟨⟨a,_⟩,read,passed⟩ := Read.bind_eq_ok.mp passed
    obtain ⟨rfl,rfl⟩ := Prod.mk.inj (Except.ok.inj passed)
    obtain ⟨space,v,white,means,split⟩ := optional_json_sound read
    exact (parse_place reads gaps delimited white means delimited split).symm

/-- What stands as the payload of a kubelet config is read as its payload. -/
theorem payload_stands {document t : Bytes} {kubelet : KubeletConfig} {payload : Json}
    (given : Kind.kubeletConfig.codec.parse document = .ok kubelet) (stands : Stands t document)
    (reads : Json.parse t = .ok payload) : Asks payload kubelet.spec := by
  obtain ⟨rest,passed,_⟩ := (Read.document_iff _ _ _).mp given
  obtain @⟨before,spec,s,after,blanks,outer,inner,_⟩ := stands
  refine Codec.strict_gives (P := fun kubelet : KubeletConfig => Asks payload kubelet.spec) blanks
    outer passed (by rfl) (by rfl) (by decide)
    (by simp [KubeletConfig.fields,Metadata.codec_consumes,KubeletConfig.specCodec_consumes]) ?_ ?_
  · simp only [KubeletConfig.fields,List.forall_mem_cons]
    refine ⟨fun _ => ?_,fun same => absurd rfl same,List.forall_mem_nil _⟩
    exact Field.need_preserves fun _ _ _ _ start _ => start
  · intro record next gap rest gaps _ passed
    obtain ⟨⟨found,_⟩,read,passed⟩ := Read.bind_eq_ok.mp passed
    obtain ⟨rfl,rfl⟩ := Prod.mk.inj (Except.ok.inj passed)
    exact asks_spec reads gaps inner read

/-- Whether the numbers in all the settings that do not size a node survive. -/
def settingsSurvive (members : List (String × Json)) : Bool :=
  members.all fun member => sizingFields.contains member.1 || (numbers member.2).all Number.survives

theorem settingsSurvive_iff (map : SortedMap Json) : settingsSurvive map.entries = true ↔
    ∀ member ∈ map.entries, member.1 ∉ sizingFields → ∃ other, map.get? member.1 = some other ∧
      other.canonical = (renumber Number.restored member.2).canonical := by
  rw [settingsSurvive,List.all_eq_true]
  refine forall₂_congr fun member inside => ?_
  have found := (SortedMap.get?_eq_some_iff _ _ _).mpr inside
  have agreeing : (numbers member.2).all Number.survives = true ↔
      member.2.canonical = (renumber Number.restored member.2).canonical := by
    rw [eq_comm (b := (renumber _ _).canonical),canonical_renumber_eq_iff,List.all_eq_true]
    exact forall₂_congr fun x _ => x.survives_iff
  rw [Bool.or_eq_true,List.contains_iff_mem,agreeing,found,or_iff_not_imp_left]
  simp

/-- Without floating-point numbers everything survives. -/
theorem settingsSurvive_of_whole {members : List (String × Json)}
    (whole : ∀ member ∈ members, member.1 ∉ sizingFields → ∀ x ∈ numbers member.2,
      ∃ i bounded, x = .whole i bounded) : settingsSurvive members = true := by
  rw [settingsSurvive,List.all_eq_true]
  intro member inside
  rw [Bool.or_eq_true,List.contains_iff_mem,List.all_eq_true,or_iff_not_imp_left]
  intro other x number
  obtain ⟨i,bounded,rfl⟩ := whole member inside other x number
  exact Number.survives_whole i bounded

/-- The text of a kubelet config that asks for what a text says, and for nothing else. -/
def asking (t : Bytes) : Bytes :=
  compactObject [("metadata",word "\x7b\x7d"),("spec",compactObject [("kubeletConfig",t)])]

theorem gives_compact {entries : List (String × Bytes)}
    (values : ∀ entry ∈ entries, Written .value entry.2) {name : String} {t : Bytes}
    (inside : (name,t) ∈ entries) (place : Nat) : Gives name place t (compactObject entries) :=
  .member (object_compact (pairs_verbatim values)) inside

theorem stands_asking {t : Bytes} (written : Written .value t) : Stands t (asking t) := by
  have inner : Gives "kubeletConfig" 3 t (compactObject [("kubeletConfig",t)]) :=
    gives_compact (List.forall_mem_singleton.mpr written) List.mem_cons_self 3
  have outer : Gives "spec" 1 (compactObject [("kubeletConfig",t)]) (asking t) :=
    gives_compact (List.forall_mem_cons.mpr ⟨.emptyObject Read.blanks_nil,
      List.forall_mem_singleton.mpr inner.written⟩) (List.mem_cons_of_mem _ List.mem_cons_self) 1
  have stands := Stands.inside Read.blanks_nil outer inner Read.blanks_nil
  rwa [List.nil_append,List.append_nil] at stands

/-- A file with the very text that stands as the payload, which is an object, is recognized just
when the numbers in it survive. -/
theorem isRendered_same_text {document t before after : Bytes} {kubelet : KubeletConfig}
    {members : List (String × Json)} {config : MachineConfig}
    (given : Kind.kubeletConfig.codec.parse document = .ok kubelet) (stands : Stands t document)
    (object : Json.parse t = .ok (.object members)) (first : Blanks before) (second : Blanks after)
    (writes : Writes config (before ++ (t ++ after))) :
    (isRendered kubelet config).outcome = .ok (settingsSurvive members) := by
  have asked : kubelet.spec.kubeletConfig = some (.object members) := by
    have asks := payload_stands given stands object
    cases payload : kubelet.spec.kubeletConfig with
    | none =>
      rw [Asks,payload] at asks
      contradiction
    | some value =>
      rw [Asks,payload] at asks
      exact congrArg some asks
  cases payload_resource given _ asked with
  | @object _ map inside =>
    exact isRendered_parsed given asked writes (parse_blanks object first second)
      (settingsSurvive_iff map)

/-- Whether a text is an object with settings that survive, if it is one at all. -/
def survival? (t : Bytes) : Option Bool :=
  match Json.parse t with
  | .ok (.object members) => some (settingsSurvive members)
  | _ => none

theorem survival?_some {t : Bytes} {b : Bool} (survival : survival? t = some b) :
    ∃ members, Json.parse t = .ok (.object members) ∧ settingsSurvive members = b := by
  rw [survival?] at survival
  split at survival
  next members read => exact ⟨members,read,Option.some.inj survival⟩
  next => contradiction

theorem written_of_skip {t : Bytes} (ink : Read.skipBlanks t = t)
    (skipped : (Skip.value t).toOption = some []) : Written .value t := by
  cases read : Skip.value t with
  | error stop =>
    rw [read] at skipped
    contradiction
  | ok rest =>
    rw [read] at skipped
    obtain rfl := Option.some.inj skipped
    obtain ⟨before,v,blanks,written,whole⟩ := Skip.value_sound _ _ read
    obtain ⟨b,u,rfl,plain,-⟩ := Skip.value_head written
    rw [List.append_nil] at whole
    rw [whole,Read.skipBlanks_append blanks,Read.skipBlanks_cons plain,← whole] at ink
    exact ink ▸ written

/-- Two settings, one of them a number that survives although it is no whole one. -/
def steadyFactor : Bytes := word "\x7b\"maxPods\":250,\"memoryThrottlingFactor\":0.9\x7d"

theorem isRendered_same_text_steady : ∃ kubelet,
    Kind.kubeletConfig.codec.parse (asking steadyFactor) = .ok kubelet ∧
    (isRendered kubelet (writing (DataUrl.plainPrefix ++
      "\x7b\"maxPods\":250,\"memoryThrottlingFactor\":0.9\x7d"))).outcome = .ok true := by
  have survival : survival? steadyFactor = some true := by decide +kernel
  obtain ⟨members,object,survive⟩ := survival?_some survival
  have read : (fate? (asking steadyFactor) {}).isSome = true := by decide +kernel
  obtain ⟨result,fate⟩ := Option.isSome_iff_exists.mp read
  obtain ⟨kubelet,given,-⟩ := fate?_some fate
  have stands := stands_asking (@written_of_skip steadyFactor (by decide) (by decide +kernel))
  have writes : Writes (writing (DataUrl.plainPrefix ++
      "\x7b\"maxPods\":250,\"memoryThrottlingFactor\":0.9\x7d")) ([] ++ (steadyFactor ++ [])) :=
    writes_of_delivers (@delivers_percent _ (· != Percent.sign) _ (by decide) (by decide +kernel))
  refine ⟨kubelet,given,?_⟩
  rw [isRendered_same_text given stands object Read.blanks_nil Read.blanks_nil writes,survive]

/-- A number that is read as a greater one each time it is written and read. -/
def driftingFactor : Bytes := word "\x7b\"memoryThrottlingFactor\":0.9100350000000666\x7d"

/-- The file has the text that is asked for, and it is not recognized. -/
theorem isRendered_same_text_drifting : ∃ kubelet members,
    Kind.kubeletConfig.codec.parse (asking driftingFactor) = .ok kubelet ∧
    Stands driftingFactor (asking driftingFactor) ∧
    Json.parse driftingFactor = .ok (.object members) ∧
    Writes (writing (DataUrl.plainPrefix ++
      "\x7b\"memoryThrottlingFactor\":0.9100350000000666\x7d")) driftingFactor ∧
    (isRendered kubelet (writing (DataUrl.plainPrefix ++
      "\x7b\"memoryThrottlingFactor\":0.9100350000000666\x7d"))).outcome = .ok false := by
  have fate : fate? (asking driftingFactor) (writing (DataUrl.plainPrefix ++
      "\x7b\"memoryThrottlingFactor\":0.9100350000000666\x7d")) = some (.ok false) := by
    decide +kernel
  obtain ⟨kubelet,given,ended⟩ := fate?_some fate
  have survival : survival? driftingFactor = some false := by decide +kernel
  obtain ⟨members,object,-⟩ := survival?_some survival
  exact ⟨kubelet,members,given,
    stands_asking (@written_of_skip driftingFactor (by decide) (by decide +kernel)),object,
    writes_of_delivers (@delivers_percent _ (· != Percent.sign) _ (by decide) (by decide +kernel)),
    ended⟩

end Kubelet
end NodeAudit
