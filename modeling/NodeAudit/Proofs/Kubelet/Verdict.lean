import NodeAudit.Proofs.Json.Agreement
import NodeAudit.Proofs.Kubelet.Payload
import NodeAudit.Proofs.Trace

/-! The verdict on whether a machine config writes the settings that a kubelet config asks for, with
the order in which what is wrong with either of them is found. -/
namespace NodeAudit.Kubelet
open Json

/-- The first file of an Ignition document that stands for the configuration file. -/
def First (files : List Ignition.File) (file : Ignition.File) : Prop :=
  ∃ before after, files = before ++ file :: after ∧
    (∀ other ∈ before, other.path ≠ configurationPath) ∧ file.path = configurationPath

/-- A configuration file holds the settings that it has as JSON, or else those that it has as
YAML. -/
def Holds (file : Bytes) (found : SortedMap Json) : Prop :=
  (Codec.map .json).parse file = .ok found ∨
    (∀ others, (Codec.map .json).parse file ≠ .ok others) ∧ Yaml.parse file = some found

/-- Settings meet a value if they have under its name what the value is read as from its text. -/
def Meets (found : SortedMap Json) (name : String) (value : Json) : Prop :=
  ∃ w other, Json.parse (compact value) = .ok w ∧ found.get? name = some other ∧
    other.canonical = w.canonical

/-- The machine config writes a configuration file with these contents. -/
def Writes (config : MachineConfig) (file : Bytes) : Prop :=
  ∃ ignition entry source, config.ignition = .ok ignition ∧ First ignition.storage.files entry ∧
    entry.contents.source = some source ∧ DataUrl.decode source = .ok file

/-- The verdict by the first case that applies. -/
inductive Verdict (kubelet : KubeletConfig) (config : MachineConfig) : Except Fault Bool → Prop where
  | unasked (none : kubelet.spec.kubeletConfig = none) : Verdict kubelet config (.ok true)
  | malformed {payload : Json} {reason : Misfit} (asked : kubelet.spec.kubeletConfig = some payload)
      (fails : config.ignition = .error reason) :
      Verdict kubelet config (.error (.invalidArgument ("machine config " ++
        config.metadata.anyName ++ " has malformed ignition: " ++ reason.message)))
  | unwritten {payload : Json} {ignition : Ignition}
      (asked : kubelet.spec.kubeletConfig = some payload) (reads : config.ignition = .ok ignition)
      (absent : ∀ entry ∈ ignition.storage.files, entry.path ≠ configurationPath) :
      Verdict kubelet config (.ok false)
  | sourceless {payload : Json} {ignition : Ignition} {entry : Ignition.File}
      (asked : kubelet.spec.kubeletConfig = some payload) (reads : config.ignition = .ok ignition)
      (first : First ignition.storage.files entry) (bare : entry.contents.source = none) :
      Verdict kubelet config (.ok false)
  | undecodable {payload : Json} {ignition : Ignition} {entry : Ignition.File} {source : String}
      {problem : DataUrl.Problem} (asked : kubelet.spec.kubeletConfig = some payload)
      (reads : config.ignition = .ok ignition) (first : First ignition.storage.files entry)
      (given : entry.contents.source = some source)
      (fails : DataUrl.decode source = .error problem) :
      Verdict kubelet config (.error (.unsupportedPayload problem.message))
  | notObject {payload : Json} {file : Bytes} {located : Located}
      (asked : kubelet.spec.kubeletConfig = some payload) (writes : Writes config file)
      (other : ∀ members, payload ≠ .object members)
      (place : Read.document verbatimObject (compact payload) = .error located) :
      Verdict kubelet config (.error (.payloadDecode located))
  | unparsable {members : List (String × Json)} {file : Bytes}
      (asked : kubelet.spec.kubeletConfig = some (.object members)) (writes : Writes config file)
      (neither : ∀ found, ¬Holds file found) : Verdict kubelet config (.error .renderedParse)
  | compared {members : List (String × Json)} {file : Bytes} {found : SortedMap Json} {b : Bool}
      (asked : kubelet.spec.kubeletConfig = some (.object members)) (writes : Writes config file)
      (holds : Holds file found) (restored : ∀ member ∈ members, ∃ w,
        Json.parse (compact member.2) = .ok w)
      (verdict : b = true ↔ ∀ member ∈ members, member.1 ∉ sizingFields →
        Meets found member.1 member.2) : Verdict kubelet config (.ok b)

theorem first_iff (files : List Ignition.File) (file : Ignition.File) :
    First files file ↔ files.find? (fun file => file.path = configurationPath) = some file := by
  rw [List.find?_eq_some_iff_append]
  constructor
  · rintro ⟨before,after,split,others,reached⟩
    exact ⟨by simpa using reached,before,after,split,fun other member => by
      simpa using others other member⟩
  · rintro ⟨reached,before,after,split,others⟩
    exact ⟨before,after,split,fun other member => by simpa using others other member,
      by simpa using reached⟩

theorem settings_ok_iff (file : Bytes) (found : SortedMap Json) :
    settings file = .ok found ↔ Holds file found := by
  rw [settings,Holds]
  cases json : (Codec.map .json).parse file with
  | ok map => simp
  | error _ =>
    cases yaml : Yaml.parse file with
    | some map => simp
    | none => simp

theorem settings_error {file : Bytes} {fault : Fault} (fails : settings file = .error fault) :
    fault = .renderedParse ∧ ∀ found, ¬Holds file found := by
  refine ⟨?_,fun found holds => ?_⟩
  · rw [settings] at fails
    split at fails
    next => contradiction
    next =>
      split at fails
      next => contradiction
      next => exact (Except.error.inj fails).symm
  · rw [← settings_ok_iff,fails] at holds
    contradiction

theorem differing_isEmpty_iff (asked found : SortedMap Json) :
    (differing asked found).isEmpty = true ↔ ∀ name w, asked.get? name = some w →
      ∃ other, found.get? name = some other ∧ other.canonical = w.canonical := by
  rw [differing,List.isEmpty_iff,List.map_eq_nil_iff,List.filter_eq_nil_iff]
  simp only [Prod.forall,← SortedMap.get?_eq_some_iff]
  refine forall_congr' fun name => forall_congr' fun w => imp_congr_right fun _ => ?_
  cases found.get? name with
  | none => simp
  | some other => simp [agrees_iff]

theorem renderedFile_reads {config : MachineConfig} {ignition : Ignition}
    (reads : config.ignition = .ok ignition) :
    renderedFile config = match (ignition.storage.files.find? fun file =>
        file.path = configurationPath).bind (·.contents.source) with
      | some source => some <$> contents source
      | none => .ok none := by
  rw [renderedFile,MachineConfig.findFile,reads]
  rfl

theorem renderedFile_outcome (config : MachineConfig) :
    match renderedFile config with
    | .error fault => (∃ reason, config.ignition = .error reason ∧
        fault = .invalidArgument ("machine config " ++ config.metadata.anyName ++
          " has malformed ignition: " ++ reason.message)) ∨
      ∃ ignition entry source problem, config.ignition = .ok ignition ∧
        First ignition.storage.files entry ∧ entry.contents.source = some source ∧
        DataUrl.decode source = .error problem ∧ fault = .unsupportedPayload problem.message
    | .ok none => ∃ ignition, config.ignition = .ok ignition ∧
        ((∀ entry ∈ ignition.storage.files, entry.path ≠ configurationPath) ∨
          ∃ entry, First ignition.storage.files entry ∧ entry.contents.source = none)
    | .ok (some file) => Writes config file := by
  cases reads : config.ignition with
  | error reason =>
    rw [renderedFile,MachineConfig.findFile,reads]
    exact .inl ⟨reason,rfl,rfl⟩
  | ok ignition =>
    rw [renderedFile_reads reads]
    cases found : ignition.storage.files.find? fun file => file.path = configurationPath with
    | none =>
      refine ⟨ignition,rfl,.inl fun entry member => ?_⟩
      simpa using List.find?_eq_none.mp found entry member
    | some entry =>
      have first := (first_iff _ _).mpr found
      rw [Option.bind_some]
      cases given : entry.contents.source with
      | none => exact ⟨ignition,rfl,.inr ⟨entry,first,given⟩⟩
      | some source =>
        cases decoded : DataUrl.decode source with
        | error problem =>
          simp only [contents,decoded]
          exact .inr ⟨ignition,entry,source,problem,rfl,first,given,decoded,rfl⟩
        | ok file =>
          simp only [contents,decoded]
          exact ⟨ignition,entry,source,reads,first,given,decoded⟩

theorem meets_iff {depth : Nat} (bound : depth ≤ Read.depth) {value : Json}
    (readable : Readable depth value) (found : SortedMap Json) (name : String) :
    Meets found name value ↔ ∃ other, found.get? name = some other ∧
      other.canonical = (renumber Number.restored value).canonical := by
  have back := parse_readable bound readable
  constructor
  · rintro ⟨w,other,again,has,equal⟩
    obtain rfl := Except.ok.inj (back.symm.trans again)
    exact ⟨other,has,equal⟩
  · rintro ⟨other,has,equal⟩
    exact ⟨_,other,back,has,equal⟩

/-- An object that was read as a payload asks for settings, and they are in the file just when each
one that does not size a node is met. -/
theorem requested_readable {members : List (String × Json)}
    (readable : Readable 125 (.object members)) : ∃ asked, requested (.object members) = .ok asked ∧
      (∀ member ∈ members, ∃ w, Json.parse (compact member.2) = .ok w) ∧
      ∀ found, (differing asked found).isEmpty = true ↔ ∀ member ∈ members,
        member.1 ∉ sizingFields → Meets found member.1 member.2 := by
  cases readable with
  | @object _ map inside =>
    refine ⟨_,requested_object (by decide) inside,fun member given =>
      ⟨_,parse_readable (by decide) (inside member given)⟩,fun found => ?_⟩
    rw [differing_isEmpty_iff]
    constructor
    · intro each member given other
      refine (meets_iff (by decide) (inside member given) found member.1).mpr (each _ _ ?_)
      rw [SortedMap.get?_relabel]
      exact ⟨_,(SortedMap.get?_eq_some_iff _ _ _).mpr (mem_eraseSizing.mpr ⟨other,given⟩),rfl⟩
    · intro each name w requested
      obtain ⟨v,kept,rfl⟩ := (SortedMap.get?_relabel _ _ _ _).mp requested
      obtain ⟨other,given⟩ := mem_eraseSizing.mp ((SortedMap.get?_eq_some_iff _ _ _).mp kept)
      exact (meets_iff (by decide) (inside _ given) found name).mp (each _ given other)

/-- The steps to an outcome once there is a payload, without what they log. -/
def steps (payload : Json) (config : MachineConfig) : Except Fault Bool :=
  renderedFile config >>= fun
    | none => .ok false
    | some file => do
      let asked ← requested payload
      let found ← settings file
      return (differing asked found).isEmpty

theorem isRendered_steps {kubelet : KubeletConfig} {payload : Json}
    (asked : kubelet.spec.kubeletConfig = some payload) (config : MachineConfig) :
    (isRendered kubelet config).outcome = steps payload config := by
  rw [isRendered,asked]
  simp only [Trace.outcome_bind,Trace.outcome_of]
  refine congrArg _ (funext fun written => ?_)
  cases written with
  | none => rfl
  | some file =>
    simp only [Trace.outcome_bind,Trace.outcome_of]
    refine congrArg _ (funext fun wanted => congrArg _ (funext fun found => ?_))
    split
    next => rfl
    next => rfl

theorem renderedFile_writes {config : MachineConfig} {file : Bytes} (writes : Writes config file) :
    renderedFile config = .ok (some file) := by
  obtain ⟨ignition,entry,source,reads,first,given,decodes⟩ := writes
  rw [renderedFile_reads reads,(first_iff _ _).mp first,Option.bind_some,given]
  simp only [contents,decodes]
  rfl

/-- No two verdicts differ: the cases exclude one another, and each says how the outcome is. -/
theorem isRendered_of_verdict {text : Bytes} {kubelet : KubeletConfig}
    (given : Kind.kubeletConfig.codec.parse text = .ok kubelet) {config : MachineConfig}
    {result : Except Fault Bool} (verdict : Verdict kubelet config result) :
    (isRendered kubelet config).outcome = result := by
  cases verdict with
  | unasked none =>
    rw [isRendered,none]
    rfl
  | malformed asked fails =>
    rw [isRendered_steps asked,steps,renderedFile,MachineConfig.findFile,fails]
    rfl
  | @unwritten payload ignition asked reads absent =>
    have nothing : (ignition.storage.files.find? fun file => file.path = configurationPath) = none :=
      List.find?_eq_none.mpr fun entry member => by simpa using absent entry member
    rw [isRendered_steps asked,steps,renderedFile_reads reads,nothing]
    rfl
  | sourceless asked reads first bare =>
    rw [isRendered_steps asked,steps,renderedFile_reads reads,(first_iff _ _).mp first,
      Option.bind_some,bare]
    rfl
  | undecodable asked reads first source fails =>
    rw [isRendered_steps asked,steps,renderedFile_reads reads,(first_iff _ _).mp first,
      Option.bind_some,source]
    simp only [contents,fails]
    rfl
  | notObject asked writes other place =>
    rw [isRendered_steps asked,steps,renderedFile_writes writes]
    show (requested _ >>= _) = _
    rw [requested_error place]
    rfl
  | @unparsable members file asked writes neither =>
    obtain ⟨wanted,requests,-⟩ := requested_readable (payload_resource given _ asked)
    rw [isRendered_steps asked,steps,renderedFile_writes writes]
    show (requested _ >>= _) = _
    rw [requests]
    cases read : settings file with
    | error fault =>
      obtain ⟨rfl,-⟩ := settings_error read
      rfl
    | ok found => exact absurd ((settings_ok_iff file found).mp read) (neither found)
  | @compared members file found b asked writes holds restored verdict =>
    obtain ⟨wanted,requests,-,same⟩ := requested_readable (payload_resource given _ asked)
    have equal : (differing wanted found).isEmpty = b := by
      rw [Bool.eq_iff_iff,same found,verdict]
    rw [isRendered_steps asked,steps,renderedFile_writes writes]
    show (requested _ >>= _) = _
    rw [requests]
    show (settings file >>= _) = _
    rw [(settings_ok_iff file found).mpr holds,← equal]
    rfl

/-- A machine config that writes the configuration file from a source, and no other file. -/
def writing (source : String) : MachineConfig :=
  { spec := { config := some (.object [("storage",.object [("files",.array [.object [
    ("contents",.object [("source",.text source)]),("path",.text configurationPath)]])])]) } }

/-- A kubelet config that asks for one setting and for a size. -/
def maxPods : Bytes :=
  word "\x7b\"metadata\":\x7b\x7d,\"spec\":\x7b\"kubeletConfig\":\x7b\"maxPods\":250," ++
    word "\"systemReserved\":\x7b\"memory\":\"1Gi\"\x7d\x7d\x7d\x7d"

/-- How the text of a kubelet config fares, if it is one. -/
def fate? (text : Bytes) (config : MachineConfig) : Option (Except Fault Bool) :=
  match Kind.kubeletConfig.codec.parse text with
  | .ok kubelet => some (isRendered kubelet config).outcome
  | .error _ => none

theorem fate?_some {text : Bytes} {config : MachineConfig} {result : Except Fault Bool}
    (fate : fate? text config = some result) :
    ∃ kubelet, Kind.kubeletConfig.codec.parse text = .ok kubelet ∧
      (isRendered kubelet config).outcome = result := by
  rw [fate?] at fate
  split at fate
  next kubelet read => exact ⟨kubelet,read,Option.some.inj fate⟩
  next => contradiction

end NodeAudit.Kubelet
