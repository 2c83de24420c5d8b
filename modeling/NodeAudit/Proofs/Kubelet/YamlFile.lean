import NodeAudit.Proofs.Kubelet.Verdict
import NodeAudit.Proofs.Yaml.Mapping

/-! A configuration file of whole numbers and booleans gets one verdict, whether it is written as
compact JSON or as a YAML block mapping. -/
namespace NodeAudit.Kubelet
open Json Yaml

theorem restored_common {v : Json} (common : Common v) : renumber Number.restored v = v := by
  cases common with
  | boolean b => rfl
  | whole i bounded => rw [renumber,restored_whole]

theorem readable_common {v : Json} (common : Common v) : Readable 0 v := by
  cases common with
  | boolean => exact .boolean
  | whole => exact .number

/-- The compact text of such settings is read as them. -/
theorem settings_compact {map : SortedMap Json} (common : ∀ entry ∈ map.entries, Common entry.2) :
    settings (compact (.object map.entries)) = .ok map := by
  have readable : Readable 1 (.object map.entries) :=
    .object fun member given => readable_common (common member given)
  have back := parse_readable (by decide) readable
  have same : (map.relabel fun member => renumber Number.restored member.2) = map := by
    refine SortedMap.ext_entries ((List.map_congr_left fun member given => ?_).trans (List.map_id _))
    show (member.1,renumber Number.restored member.2) = member
    rw [restored_common (common member given)]
  rw [renumber_object,same,← parse_map_iff] at back
  rw [settings,back]

/-- What begins with a letter is no JSON object. -/
theorem settings_letter {c : Char} (letter : c.isAlpha = true) (rest : Bytes) :
    ∀ found, (Codec.map .json).parse (ascii c :: rest) ≠ .ok found := by
  intro found passed
  obtain ⟨left,read,-⟩ := (Read.document_iff _ _ _).mp passed
  obtain ⟨before,text,list,blanks,object,whole,-⟩ := (map_read_iff 126 _ _ _).mp read
  obtain ⟨ink,apart⟩ := wordy_forall (P := fun c => c.isAlpha = true →
    Read.blank (ascii c) = false ∧ ascii c ≠ ascii '{') (by decide) c (wordy_letter letter).1 letter
  rcases Read.braced_head blanks object whole with white | brace
  · rw [ink] at white
    contradiction
  · exact apart brace

theorem blockText_head {setting : String × Json} (name : Lettered setting.1)
    (others : List (String × Json)) :
    ∃ c rest, c.isAlpha = true ∧ blockText (setting :: others) = ascii c :: rest := by
  obtain ⟨some,-,letters⟩ := name
  cases shape : setting.1.toList with
  | nil =>
    rw [← String.length_toList,shape] at some
    contradiction
  | cons c chars =>
    have letter := letters c (by rw [shape]; exact List.mem_cons_self)
    have byte := wordy_forall (P := fun c => String.utf8EncodeChar c = [ascii c]) (by decide) c
      (wordy_letter letter).1
    have line : (setting.1 ++ ": " ++ wordOf setting.2 ++ "\n").toList =
        c :: (chars ++ (": " ++ wordOf setting.2 ++ "\n").toList) := by
      simp [shape]
    refine ⟨c,Utf8.encode (chars ++ (": " ++ wordOf setting.2 ++ "\n").toList) ++ blockText others,
      letter,?_⟩
    rw [blockText,List.flatMap_cons,Utf8.bytes,line,Utf8.encode,List.flatMap_cons,byte]
    rfl

/-- The YAML text of such settings is read as them. -/
theorem settings_blockText {map : SortedMap Json} {lines : List (String × Json)}
    (given : map.entries ≠ []) (names : ∀ entry ∈ map.entries, Lettered entry.1)
    (common : ∀ entry ∈ map.entries, Common entry.2) (order : lines.Perm map.entries) :
    settings (blockText lines) = .ok map := by
  have yaml := parse_blockText (fun none => given (order.symm.trans (none ▸ .refl _)).eq_nil)
    (fun line member => names line (order.mem_iff.mp member))
    fun line member => common line (order.mem_iff.mp member)
  rw [SortedMap.ofList_perm order] at yaml
  refine (settings_ok_iff _ _).mpr (.inr ⟨?_,yaml⟩)
  cases lines with
  | nil => exact absurd order.symm.eq_nil given
  | cons line lines =>
    obtain ⟨c,rest,letter,shape⟩ := blockText_head (names line (order.mem_iff.mp List.mem_cons_self))
      lines
    rw [shape]
    exact settings_letter letter rest

/-- Files of the same settings get one verdict. -/
theorem isRendered_settings {config other : MachineConfig} {file text : Bytes}
    (writes : Writes config file) (again : Writes other text) (same : settings file = settings text)
    (kubelet : KubeletConfig) :
    (isRendered kubelet config).outcome = (isRendered kubelet other).outcome := by
  cases asked : kubelet.spec.kubeletConfig with
  | none => rw [isRendered,asked,isRendered,asked]
  | some payload =>
    rw [isRendered_steps asked,isRendered_steps asked,steps,steps,renderedFile_writes writes,
      renderedFile_writes again]
    show (requested payload >>= _) = (requested payload >>= _)
    rw [same]

/-- A file with settings of whole numbers and booleans gets the same verdict as JSON and as YAML, in
whatever order the lines of the YAML text stand. -/
theorem isRendered_blockText {map : SortedMap Json} {lines : List (String × Json)}
    (given : map.entries ≠ []) (names : ∀ entry ∈ map.entries, Lettered entry.1)
    (common : ∀ entry ∈ map.entries, Common entry.2) (order : lines.Perm map.entries)
    {config other : MachineConfig} (json : Writes config (compact (.object map.entries)))
    (yaml : Writes other (blockText lines)) (kubelet : KubeletConfig) :
    (isRendered kubelet config).outcome = (isRendered kubelet other).outcome :=
  isRendered_settings json yaml
    ((settings_compact common).trans (settings_blockText given names common order).symm) kubelet

theorem writes_of_renderedFile {config : MachineConfig} {file : Bytes}
    (renders : renderedFile config = .ok (some file)) : Writes config file := by
  have outcome := renderedFile_outcome config
  rw [renders] at outcome
  exact outcome

/-- Two settings, one of them under the name of a boolean. -/
def podsEntries : List (String × Json) :=
  [("maxPods",.number (.ofNat 250 (by decide))),("true",.boolean false)]

def pods : SortedMap Json := .ofList podsEntries

def podsJson : MachineConfig := writing "data:text/plain,%7B\"maxPods\":250,\"true\":false%7D"

def podsYaml : MachineConfig := writing "data:text/plain,true:%20false%0AmaxPods:%20250%0A"

theorem isRendered_blockText_pods :
    Writes podsJson (compact (.object pods.entries)) ∧
      Writes podsYaml (blockText pods.entries.reverse) ∧
      (isRendered { spec := { kubeletConfig := some (.object pods.entries) } } podsJson).outcome =
        (isRendered { spec := { kubeletConfig := some (.object pods.entries) } } podsYaml).outcome := by
  have json : Writes podsJson (compact (.object pods.entries)) :=
    writes_of_renderedFile (by decide +kernel)
  have yaml : Writes podsYaml (blockText pods.entries.reverse) :=
    writes_of_renderedFile (by decide +kernel)
  have names : ∀ entry ∈ podsEntries, Lettered entry.1 := by decide
  have common : ∀ entry ∈ podsEntries, Common entry.2 :=
    List.forall_mem_cons.mpr ⟨.whole 250 _,List.forall_mem_singleton.mpr (.boolean false)⟩
  refine ⟨json,yaml,isRendered_blockText (by decide) ?_ ?_ (List.reverse_perm _) json yaml _⟩
  · exact fun entry member => names entry (SortedMap.mem_of_mem_ofList member)
  · exact fun entry member => common entry (SortedMap.mem_of_mem_ofList member)

end NodeAudit.Kubelet
