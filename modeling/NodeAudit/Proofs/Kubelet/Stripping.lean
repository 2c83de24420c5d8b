import NodeAudit.Proofs.Json.Encoding
import NodeAudit.Proofs.Json.Nesting
import NodeAudit.Proofs.Json.Object
import NodeAudit.Proofs.SortedMap
import NodeAudit.Resource.KubeletConfig

/-! Which payloads can be stripped of the settings that size a node, and what is left of them. -/
namespace NodeAudit.Kubelet
open Json

/-- The text that is left of an object: each name once, in the order of its bytes, with the text of
the last value that was given for it, and without the settings that size a node. -/
def Strips (members : List (String × Bytes)) (out : Bytes) : Prop :=
  ∃ kept : List (String × Bytes), out = compactObject kept ∧
    kept.Pairwise (fun a b => Utf8.bytes a.1 < Utf8.bytes b.1) ∧
    ∀ name text, (name,text) ∈ kept ↔
      name ∉ sizingFields ∧ SortedMap.Final members name text

/-- Two texts left of the same members are the same. -/
theorem strips_unique {members : List (String × Bytes)} {a b : Bytes} (first : Strips members a)
    (second : Strips members b) : a = b := by
  obtain ⟨kept,rfl,ordered,inside⟩ := first
  obtain ⟨others,rfl,sorted,within⟩ := second
  have ascending : ∀ {list : List (String × Bytes)},
      list.Pairwise (fun a b => Utf8.bytes a.1 < Utf8.bytes b.1) → Entries.Ascending list :=
    fun pairs => pairs.imp fun less => (Utf8.bytes_lt_iff _ _).mp less
  have same : kept = others := Entries.eq_of_find? (ascending ordered) (ascending sorted) fun key => by
    apply Option.ext
    intro value
    rw [Entries.find?_eq_some_iff (ascending ordered),Entries.find?_eq_some_iff (ascending sorted),
      inside,within]
  rw [same]

theorem get?_eraseSizing {α : Type} (settings : SortedMap α) (name : String) :
    (eraseSizing settings).get? name = if name ∈ sizingFields then none else settings.get? name := by
  rw [eraseSizing,sizingFields,List.foldl_cons,List.foldl_cons,List.foldl_nil,
    SortedMap.get?_erase,SortedMap.get?_erase]
  simp only [List.mem_cons,List.not_mem_nil,or_false,eq_comm (a := name)]
  by_cases second : "systemReserved" = name
  · rw [if_pos second,if_pos (.inr second)]
  · by_cases first : "autoSizingReserved" = name
    · rw [if_neg second,if_pos first,if_pos (.inl first)]
    · rw [if_neg second,if_neg first,if_neg (not_or.mpr ⟨first,second⟩)]

theorem strips_ofList (members : List (String × Bytes)) :
    Strips members (compactObject (eraseSizing (SortedMap.ofList members)).entries) := by
  refine ⟨_,rfl,(eraseSizing _).ascending.imp fun less => (Utf8.bytes_lt_iff _ _).mpr less,?_⟩
  intro name text
  rw [← SortedMap.get?_eq_some_iff,get?_eraseSizing,← SortedMap.get?_ofList]
  split
  next sizing => simp [sizing]
  next other => rw [and_iff_right other]

/-- A value whose text is kept, once that is known to be text at all. -/
def Kept (v raw : Bytes) : Prop := Verbatim v raw ∧ Utf8.Valid v

theorem reads_kept : Read.Reads Skip.verbatim Kept where
  sound _ _ _ passed := by
    obtain ⟨before,blanks,written,valid,whole⟩ := Skip.verbatim_sound passed
    exact ⟨before,_,blanks,⟨⟨written,rfl⟩,valid⟩,whole⟩
  complete _ _ _ _ blanks kept delimited := by
    obtain ⟨⟨written,rfl⟩,valid⟩ := kept
    exact Skip.verbatim_complete blanks written valid delimited

theorem verbatimObject_iff (s rest : Bytes) (map : SortedMap Bytes) :
    verbatimObject s = .ok (map,rest) ↔ ∃ before text members, Blanks before ∧
      Object Kept text members ∧ s = before ++ (text ++ rest) ∧ map = .ofList members :=
  Read.braced_iff reads_kept "a map" s map rest

theorem document_kept_iff (payload : Bytes) (members : List (String × Bytes)) :
    Document Kept payload members ↔ Utf8.Valid payload ∧ Document Verbatim payload members := by
  constructor
  · intro written
    have own : ∀ v raw, Kept v raw → raw = v := fun _ _ kept => kept.1.2
    refine ⟨(document_valid_iff own written).mpr fun member inside => ?_,
      written.mono fun _ _ _ kept => kept.1⟩
    obtain ⟨v,kept⟩ := written.values member inside
    rw [own v _ kept]
    exact kept.2
  · rintro ⟨valid,written⟩
    refine written.mono fun v member inside verbatim => ⟨verbatim,?_⟩
    rw [← verbatim.2]
    exact (document_valid_iff (fun _ _ verbatim => verbatim.2) written).mp valid member inside

theorem document_verbatimObject_iff (payload : Bytes) (map : SortedMap Bytes) :
    Read.document verbatimObject payload = .ok map ↔
      ∃ members, Document Kept payload members ∧ map = .ofList members := by
  rw [Read.document_iff]
  constructor
  · rintro ⟨rest,passed,after⟩
    obtain ⟨before,text,members,blanks,object,rfl,found⟩ := (verbatimObject_iff _ _ _).mp passed
    exact ⟨members,.parts blanks object after,found⟩
  · rintro ⟨members,written,found⟩
    obtain ⟨blanks,object,after⟩ := written
    exact ⟨_,(verbatimObject_iff _ _ _).mpr ⟨_,_,members,blanks,object,rfl,found⟩,after⟩

/-- A payload is stripped just when it is well-formed UTF-8 and one JSON object whose names denote
text. Of its values only the grammar is asked, and each one that is left keeps its text. -/
theorem withoutSizing_outcome (payload : Bytes) :
    match withoutSizing payload with
    | .ok out => Utf8.Valid payload ∧ (∃ members, Document Verbatim payload members) ∧
      ∀ members, Document Verbatim payload members → Strips members out
    | .error fault => (∃ located, fault = .payloadDecode located) ∧
      ¬(Utf8.Valid payload ∧ ∃ members, Document Verbatim payload members) := by
  cases read : Read.document verbatimObject payload with
  | ok map =>
    obtain ⟨members,written,rfl⟩ := (document_verbatimObject_iff _ _).mp read
    obtain ⟨valid,verbatim⟩ := (document_kept_iff _ _).mp written
    simp only [withoutSizing,read]
    refine ⟨valid,⟨members,verbatim⟩,fun others again => ?_⟩
    have same := (document_verbatimObject_iff payload _).mpr
      ⟨others,(document_kept_iff _ _).mpr ⟨valid,again⟩,rfl⟩
    rw [Except.ok.inj (read.symm.trans same)]
    exact strips_ofList others
  | error located =>
    simp only [withoutSizing,read]
    refine ⟨⟨located,rfl⟩,fun ⟨valid,members,verbatim⟩ => ?_⟩
    have found := (document_verbatimObject_iff payload _).mpr
      ⟨members,(document_kept_iff _ _).mpr ⟨valid,verbatim⟩,rfl⟩
    rw [read] at found
    contradiction

end NodeAudit.Kubelet
