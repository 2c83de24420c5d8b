import NodeAudit.Proofs.Codec.Listed
import NodeAudit.Proofs.Resource.Restored
import NodeAudit.Resource.MachineConfig

/-! Which values are Ignition documents and what they say about files. Each record stands as an object
or as an array of its parts in order, of which the last ones may be left out. A machine config has
the files of its document, or none if that is not one. -/
namespace NodeAudit
open Json Codec

namespace Ignition

def IsText (v : Json) (text : String) : Prop := v = .text text

def IsMode (v : Json) (mode : UInt32) : Prop := ∃ bounded, v = .number (.whole mode.toNat bounded)

def IsContents (v : Json) (contents : Contents) : Prop :=
  ∃ members, Lists ["source"] v members ∧
    Given (Nullable IsText) none (Entries.find? "source" members) contents.source

def IsFile (v : Json) (file : File) : Prop :=
  ∃ members, Lists ["path","contents","mode"] v members ∧
    (∃ w, Entries.find? "path" members = some w ∧ IsText w file.path) ∧
    Given IsContents {} (Entries.find? "contents" members) file.contents ∧
    Given (Nullable IsMode) none (Entries.find? "mode" members) file.mode

def IsFiles (v : Json) (files : List File) : Prop :=
  ∃ items, v = .array items ∧ List.Forall₂ IsFile items files

def IsStorage (v : Json) (storage : Storage) : Prop :=
  ∃ members, Lists ["files"] v members ∧
    Given IsFiles [] (Entries.find? "files" members) storage.files

end Ignition

def IsIgnition (v : Json) (ignition : Ignition) : Prop :=
  ∃ members, Lists ["storage"] v members ∧
    Given Ignition.IsStorage {} (Entries.find? "storage" members) ignition.storage

namespace Ignition

theorem text_ofJson_iff (v : Json) (o : Option String) :
    string.optional.ofJson v = .ok o ↔ Nullable IsText v o := by
  rw [optional_ofJson_iff]
  simp only [string_ofJson_iff]
  rfl

theorem mode_ofJson_iff (v : Json) (o : Option UInt32) :
    uint32.optional.ofJson v = .ok o ↔ Nullable IsMode v o := by
  rw [optional_ofJson_iff]
  simp only [uint32_ofJson_iff]
  rfl

def fileLaid : Laid .strict fileCodec where
  shape := rfl
  layout := {
    slots := [.need _ _ _ _,.of _ _ _ _,.of _ _ _ _]
    same := rfl }

section
variable {v : Json} (ordered : v.Ordered)
include ordered

theorem contents_ofJson_iff (contents : Contents) :
    contentsCodec.ofJson v = .ok contents ↔ IsContents v contents :=
  single_ofJson_iff (fun _ _ => rfl) (fun ⟨_⟩ ⟨_⟩ => congrArg Contents.mk) ordered
    fun w o _ => text_ofJson_iff w o

theorem file_ofJson_iff (file : File) : fileCodec.ofJson v = .ok file ↔ IsFile v file := by
  have uniform : ∀ slot ∈ fileLaid.layout.slots, slot.Uniform := by
    simp only [fileLaid,List.forall_mem_cons]
    exact ⟨Slot.need_uniform,Slot.of_uniform,Slot.of_uniform,List.forall_mem_nil _⟩
  rw [fileLaid.ofJson_iff uniform ordered]
  refine exists_congr fun members => and_congr_right fun lists => ?_
  simp only [fileLaid,List.forall_mem_cons]
  rw [Slot.need_reads_iff,Slot.of_reads_iff,Slot.of_reads_iff]
  refine and_congr ?_ (and_congr ?_ ((and_iff_left (List.forall_mem_nil _)).trans ?_))
  · exact exists_congr fun w => and_congr_right fun _ => string_ofJson_iff w _
  · refine lists.given_congr ordered ?_ _ _ _
    exact fun _ contents inside => contents_ofJson_iff inside contents
  · exact lists.given_congr ordered (fun w mode _ => mode_ofJson_iff w mode) _ _ _

theorem files_ofJson_iff (files : List File) :
    fileCodec.list.ofJson v = .ok files ↔ IsFiles v files :=
  list_ofJson_iff ordered (fun _ file inside => file_ofJson_iff inside file) files

theorem storage_ofJson_iff (storage : Storage) :
    storageCodec.ofJson v = .ok storage ↔ IsStorage v storage :=
  single_ofJson_iff (fun _ _ => rfl) (fun ⟨_⟩ ⟨_⟩ => congrArg Storage.mk) ordered
    fun _ files inside => files_ofJson_iff inside files

theorem ofJson_iff (ignition : Ignition) :
    codec.ofJson v = .ok ignition ↔ IsIgnition v ignition :=
  single_ofJson_iff (fun _ _ => rfl) (fun ⟨_⟩ ⟨_⟩ => congrArg Ignition.mk) ordered
    fun _ storage inside => storage_ofJson_iff inside storage

end

/-- The first of some files to stand at a path, if any does. -/
inductive FirstAt (files : List File) (path : String) : Option File → Prop where
  | absent (others : ∀ file ∈ files, file.path ≠ path) : FirstAt files path none
  | found {before after : List File} {file : File} (split : files = before ++ file :: after)
      (others : ∀ other ∈ before, other.path ≠ path) (there : file.path = path) :
      FirstAt files path (some file)

theorem firstAt_find? (files : List File) (path : String) :
    FirstAt files path (files.find? fun file => file.path = path) := by
  cases found : files.find? fun file => file.path = path with
  | none =>
    refine .absent fun file member => ?_
    simpa using List.find?_eq_none.mp found file member
  | some file =>
    obtain ⟨there,before,after,split,others⟩ := List.find?_eq_some_iff_append.mp found
    exact .found split (by simpa using others) (by simpa using there)

end Ignition

namespace MachineConfig
open Ignition

/-- A machine config's document is read as the one Ignition document that it is, or fails to be read
where it is none. The first file of a path is then found, or for every path the same failure. -/
theorem ignition_outcome {config : MachineConfig} {document : Json}
    (given : config.spec.config = some document) (ordered : document.Ordered) :
    match config.ignition with
    | .ok ignition => (∀ other, IsIgnition document other ↔ other = ignition) ∧
        ∀ path, ∃ found, config.findFile path = .ok found ∧
          FirstAt ignition.storage.files path found
    | .error misfit => (∀ other, ¬IsIgnition document other) ∧
        ∀ path, config.findFile path = .error misfit := by
  have reads : config.ignition = codec.ofJson document := by rw [ignition,given]
  cases outcome : config.ignition with
  | ok ignition =>
    refine ⟨fun other => ?_,fun path => ⟨_,?_,firstAt_find? ignition.storage.files path⟩⟩
    · rw [← ofJson_iff ordered,← reads,outcome]
      exact ⟨fun same => (Except.ok.inj same).symm,fun same => congrArg Except.ok same.symm⟩
    · rw [findFile,outcome]
      rfl
  | error misfit =>
    refine ⟨fun other is => ?_,fun path => ?_⟩
    · rw [← ofJson_iff ordered,← reads,outcome] at is
      contradiction
    · rw [findFile,outcome]
      rfl

/-- The document of a machine config that was read is a value in order. -/
theorem document_ordered {text : Bytes} {config : MachineConfig} {document : Json}
    (gives : Kind.machineConfig.Gives text config) (given : config.spec.config = some document) :
    document.Ordered := by
  have made : Kind.machineConfig.codec.Made (126 + 1) config := Kind.gives_made gives
  have got := strict_got layout made
  simp only [layout,List.forall_mem_cons] at got
  have parts := specLaid.got (Slot.need_got got.2.1 (blank_made rfl))
  simp only [specLaid,List.forall_mem_cons] at parts
  have whole := Slot.of_got parts.1 (optional_none_made _ _)
  rw [given] at whole
  exact ⟨_,json_made (optional_made whole)⟩

/-- The Ignition document that a text of a machine config contains. -/
def contained? (text : Bytes) : Option Ignition :=
  match Kind.machineConfig.codec.parse text with
  | .ok config => if config.spec.config.isSome then config.ignition.toOption else none
  | .error _ => none

theorem contained?_some {text : Bytes} {ignition : Ignition}
    (contained : contained? text = some ignition) : ∃ config document,
      Kind.machineConfig.codec.parse text = .ok config ∧ config.spec.config = some document ∧
      config.ignition = .ok ignition := by
  rw [contained?] at contained
  split at contained
  next config read =>
    split at contained
    next some =>
      obtain ⟨document,given⟩ := Option.isSome_iff_exists.mp some
      cases reads : config.ignition with
      | ok other =>
        rw [reads] at contained
        obtain rfl := Option.some.inj contained
        exact ⟨config,document,read,given,reads⟩
      | error misfit =>
        rw [reads] at contained
        contradiction
    next => contradiction
  next => contradiction

/-- A document of records in both forms, with a null, a member of no meaning and two files of one
path. -/
def mixed : Bytes :=
  word "\x7b\"metadata\":\x7b\x7d,\"spec\":\x7b\"config\":\x7b\"storage\":[[" ++
  word "[\"/a\",\x7b\"source\":null\x7d,420]," ++
  word "\x7b\"path\":\"/b\",\"extra\":true,\"contents\":[\"data:,x\"]\x7d," ++
  word "[\"/b\"]]]\x7d\x7d\x7d"

/-- The files of `mixed`. -/
def files : List File :=
  [⟨"/a",⟨none⟩,some 420⟩,⟨"/b",⟨some "data:,x"⟩,none⟩,⟨"/b",{},none⟩]

theorem ignition_outcome_mixed : ∃ config document,
    Kind.machineConfig.codec.parse mixed = .ok config ∧
    config.spec.config = some document ∧ document.Ordered ∧
    (∀ other, IsIgnition document other ↔ other = ⟨⟨files⟩⟩) ∧
    ∃ found, config.findFile "/b" = .ok found ∧ FirstAt files "/b" found := by
  have contained : contained? mixed = some ⟨⟨files⟩⟩ := by decide +kernel
  obtain ⟨config,document,read,given,reads⟩ := contained?_some contained
  have ordered := document_ordered (.inl read) given
  have outcome := ignition_outcome given ordered
  rw [reads] at outcome
  exact ⟨config,document,read,given,ordered,outcome.1,outcome.2 "/b"⟩

end MachineConfig
end NodeAudit
