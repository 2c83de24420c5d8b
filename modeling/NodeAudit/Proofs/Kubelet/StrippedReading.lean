import NodeAudit.Proofs.Json.Paired
import NodeAudit.Proofs.Kubelet.Stripping

/-! A payload that is stripped of the settings that size a node and then read gives what is left of
the payload as it was read. -/
namespace NodeAudit.Kubelet
open Json

theorem kept_of_means {depth : Nat} {v : Bytes} {a : Json} (means : Means depth v a) : Kept v v :=
  ⟨⟨means_written means,rfl⟩,means_valid means⟩

theorem pairs_eraseSizing {α : Type} {denotes : Bytes → α → Prop} {raws : SortedMap Bytes}
    {map : SortedMap α} (pairs : List.Forall₂ (Pair denotes) raws.entries map.entries) :
    List.Forall₂ (Pair denotes) (eraseSizing raws).entries (eraseSizing map).entries :=
  pairs_erase "systemReserved" (pairs_erase "autoSizingReserved" pairs)

/-- The members of a document beside their texts, each name once. -/
theorem document_paired {payload : Bytes} {settings : SortedMap Json}
    (reads : (Codec.map .json).parse payload = .ok settings) :
    ∃ raws, Read.document verbatimObject payload = .ok raws ∧
      List.Forall₂ (Pair (Means 126)) raws.entries settings.entries := by
  obtain ⟨rest,passed,after⟩ := (Read.document_iff _ _ _).mp reads
  obtain ⟨before,text,list,first,object,rfl,rfl⟩ := (map_read_iff 126 _ _ _).mp passed
  obtain ⟨entries,texts,pairs⟩ := object.paired fun _ _ => kept_of_means
  refine ⟨.ofList entries,?_,pairs_ofList pairs⟩
  exact (document_verbatimObject_iff _ _).mpr ⟨entries,.parts first texts after,rfl⟩

theorem parse_compactObject {raws : List (String × Bytes)} {map : SortedMap Json}
    (pairs : List.Forall₂ (Pair (Means 126)) raws map.entries) :
    (Codec.map .json).parse (compactObject raws) = .ok map := by
  refine (Read.document_iff _ _ _).mpr ⟨[],(map_read_iff 126 _ _ _).mpr ?_,Read.blanks_nil⟩
  exact ⟨[],_,map.entries,Read.blanks_nil,object_compact pairs,
    by rw [List.nil_append,List.append_nil],(SortedMap.ofList_entries map).symm⟩

/-- Whatever is read as a map can be stripped, and is then read as the same map without the settings
that size a node. -/
theorem withoutSizing_reading {payload : Bytes} {settings : SortedMap Json}
    (reads : (Codec.map .json).parse payload = .ok settings) :
    ∃ out left, withoutSizing payload = .ok out ∧ (Codec.map .json).parse out = .ok left ∧
      ∀ name, left.get? name =
        if name = "autoSizingReserved" ∨ name = "systemReserved" then none
        else settings.get? name := by
  obtain ⟨raws,found,pairs⟩ := document_paired reads
  refine ⟨compactObject (eraseSizing raws).entries,eraseSizing settings,?_,
    parse_compactObject (pairs_eraseSizing pairs),fun name => ?_⟩
  · rw [withoutSizing,found]
  · simp only [get?_eraseSizing,sizingFields,List.mem_cons,List.not_mem_nil,or_false]

/-- A name that is escaped and one that is given twice, around a size. -/
def respelled : Bytes :=
  word "\x7b\"max\\u0050ods\":1,\"systemReserved\":\x7b\"cpu\":\"1\"\x7d,\"a\":[0],\"maxPods\" : 250\x7d"

theorem withoutSizing_reading_respelled : ∃ settings, (Codec.map .json).parse respelled = .ok settings ∧
    ∃ out left, withoutSizing respelled = .ok out ∧ (Codec.map .json).parse out = .ok left ∧
      ∀ name, left.get? name =
        if name = "autoSizingReserved" ∨ name = "systemReserved" then none
        else settings.get? name := by
  have reads : ((Codec.map .json).parse respelled).isOk = true := by decide +kernel
  cases found : (Codec.map .json).parse respelled with
  | ok settings => exact ⟨settings,rfl,withoutSizing_reading found⟩
  | error located =>
    rw [found] at reads
    contradiction

end NodeAudit.Kubelet
