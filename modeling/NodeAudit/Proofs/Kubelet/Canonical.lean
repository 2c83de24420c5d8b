import NodeAudit.Proofs.Kubelet.Payload

/-! Stripping leaves a text of one form only: stripping it again changes nothing, and what is compact
before is compact afterwards. -/
namespace NodeAudit.Kubelet
open Json

theorem eraseSizing_eraseSizing {α : Type} (settings : SortedMap α) :
    eraseSizing (eraseSizing settings) = eraseSizing settings := by
  refine SortedMap.ext_get? fun name => ?_
  rw [get?_eraseSizing,get?_eraseSizing]
  split <;> rfl

theorem entries_eraseSizing {α : Type} (settings : SortedMap α) :
    (eraseSizing settings).entries = settings.entries.filter fun entry =>
      entry.1 ≠ "autoSizingReserved" ∧ entry.1 ≠ "systemReserved" := by
  show (settings.entries.filter _).filter _ = _
  rw [List.filter_filter]
  exact List.filter_congr fun entry _ => by rw [Bool.decide_and,Bool.and_comm]

/-- What is left of a payload is written from texts of values that are well-formed by themselves. -/
theorem withoutSizing_proper {payload out : Bytes} (stripped : withoutSizing payload = .ok out) :
    ∃ raws : SortedMap Bytes, out = compactObject (eraseSizing raws).entries ∧
      ∀ entry ∈ raws.entries, Proper entry.2 := by
  rw [withoutSizing] at stripped
  split at stripped
  next raws read =>
    refine ⟨raws,(Except.ok.inj stripped).symm,fun entry inside => ?_⟩
    obtain ⟨members,written,rfl⟩ := (document_verbatimObject_iff _ _).mp read
    obtain ⟨v,⟨value,own⟩,valid⟩ := written.values entry (SortedMap.mem_of_mem_ofList inside)
    exact own ▸ ⟨value,valid⟩
  next => contradiction

/-- What stripping gives it leaves as it is, byte for byte, and the compact text of an object it
takes to the compact text of the object without the settings that size a node. -/
theorem withoutSizing_steady :
    (∀ payload out, withoutSizing payload = .ok out → withoutSizing out = .ok out) ∧
      ∀ map : SortedMap Json, withoutSizing (compact (.object map.entries)) =
        .ok (compact (.object (map.entries.filter fun member =>
          member.1 ≠ "autoSizingReserved" ∧ member.1 ≠ "systemReserved"))) := by
  constructor
  · intro payload out stripped
    obtain ⟨raws,rfl,proper⟩ := withoutSizing_proper stripped
    have kept : ∀ entry ∈ (eraseSizing raws).entries, Proper entry.2 :=
      fun entry inside => proper entry (mem_eraseSizing.mp inside).2
    rw [withoutSizing_compactObject kept,eraseSizing_eraseSizing]
  · intro map
    rw [withoutSizing_compact,entries_eraseSizing]

/-- Blanks, names that are escaped or given twice, and values that only stripping passes over. -/
def unsteady : Bytes :=
  word " \x7b\"\\ud83d\\ude00\" : [ 1e400 ],\"\\u0001\":0," ++
  word "\"systemReserved\":\x7b\x7d,\"\\u0001\" :\"\\ud800\"\x7d"

/-- What is left of `unsteady`. -/
def steady : Bytes :=
  word "\x7b\"\\u0001\":\"\\ud800\",\"" ++ [0xF0,0x9F,0x98,0x80] ++ word "\":[ 1e400 ]\x7d"

theorem withoutSizing_steady_once :
    withoutSizing unsteady = .ok steady ∧ withoutSizing steady = .ok steady := by
  have once : withoutSizing unsteady = .ok steady := by decide +kernel
  exact ⟨once,withoutSizing_steady.1 unsteady steady once⟩

end NodeAudit.Kubelet
