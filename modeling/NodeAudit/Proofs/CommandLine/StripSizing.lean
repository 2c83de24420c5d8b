import NodeAudit.CommandLine.Run
import NodeAudit.Proofs.Kubelet.Canonical
import NodeAudit.Proofs.Text.Utf8
import NodeAudit.Proofs.Trace

/-! How the command that strips a file ends. What is left of a payload is text as soon as the payload
is read, so it is always printed. -/
namespace NodeAudit

namespace Kubelet
open Json

theorem valid_of_withoutSizing {payload out : Bytes} (stripped : withoutSizing payload = .ok out) :
    Utf8.Valid out := by
  obtain ⟨raws,rfl,proper⟩ := withoutSizing_proper stripped
  apply And.right
  apply proper_object
  intro entry inside
  exact proper entry (mem_eraseSizing.mp inside).2

/-- Stripping fails on nothing but payloads that are no objects, or no text. -/
theorem withoutSizing_cases (payload : Bytes) :
    (∃ text members, Document Kept payload members ∧
      withoutSizing payload = .ok (Utf8.bytes text)) ∨
    (∃ located, (¬∃ members, Document Kept payload members) ∧
      withoutSizing payload = .error (.payloadDecode located)) := by
  cases read : Read.document verbatimObject payload with
  | ok map =>
    left
    obtain ⟨members,written,-⟩ := (document_verbatimObject_iff _ _).mp read
    have stripped : withoutSizing payload = .ok (compactObject (eraseSizing map).entries) := by
      rw [withoutSizing,read]
    obtain ⟨chars,encoded⟩ := valid_of_withoutSizing stripped
    refine ⟨String.ofList chars,members,written,?_⟩
    rw [stripped,encoded,Utf8.bytes,String.toList_ofList]
  | error located =>
    right
    refine ⟨located,?_,by rw [withoutSizing,read]⟩
    rintro ⟨members,written⟩
    have other := (document_verbatimObject_iff _ _).mpr ⟨members,written,rfl⟩
    rw [read] at other
    contradiction

end Kubelet

namespace CommandLine
open Kubelet

/-- The ways in which a run that strips a payload may end. -/
inductive Stripped (payload : Bytes) (outcome : Outcome) : Prop where
  /-- What is left is printed as one line. -/
  | printed {text : String} (left : withoutSizing payload = .ok (Utf8.bytes text))
      (prints : outcome.output = [text]) (succeeds : outcome.exitCode = 0)
      (fault : outcome.fault? = none)
  /-- Nothing is printed. -/
  | refused {located : Json.Located} (left : withoutSizing payload = .error (.payloadDecode located))
      (prints : outcome.output = []) (fails : outcome.exitCode = 1)
      (fault : outcome.fault? = some (.payloadDecode located))

theorem Stripped.fault_decoding {payload : Bytes} {outcome : Outcome} {fault : Fault}
    (stripped : Stripped payload outcome) (ended : outcome.fault? = some fault) :
    ∃ located, fault = .payloadDecode located := by
  cases stripped with
  | printed _ _ _ none =>
    rw [none] at ended
    contradiction
  | @refused located _ _ _ some =>
    rw [some] at ended
    exact ⟨located,(Option.some.inj ended).symm⟩

theorem printWithoutSizing_left {payload : Bytes} {text : String}
    (left : withoutSizing payload = .ok (Utf8.bytes text)) :
    printWithoutSizing (.ok payload) = ⟨[.line text],.ok ()⟩ := by
  have stripped : (Trace.of (withoutSizing payload)).outcome = .ok (Utf8.bytes text) := left
  have decoded := (Utf8.text_eq_some_iff _ text).mpr rfl
  rw [printWithoutSizing]
  show (Trace.of (withoutSizing payload) >>= _) = _
  rw [Trace.bind_ok stripped,decoded]
  rfl

theorem printWithoutSizing_fault {payload : Bytes} {fault : Fault}
    (left : withoutSizing payload = .error fault) :
    printWithoutSizing (.ok payload) = ⟨[],.error fault⟩ := by
  rw [printWithoutSizing]
  show (Trace.of (withoutSizing payload) >>= _) = _
  rw [left]
  rfl

/-- A command that strips a file of any bytes prints what is left of them and succeeds, or prints
nothing because they are no payload. It comes to the former just if they are UTF-8 and one
object. What is left is UTF-8, so neither of the other two faults comes up. -/
theorem stripSizing_outcome {surroundings : Surroundings} {words : List String}
    {invocation : Invocation} {file : String} {payload : Bytes}
    (asked : request? surroundings.environment words = some (.run invocation))
    (command : invocation.command = .stripSizing file)
    (holds : surroundings.file file = .ok payload) :
    Stripped payload (run surroundings words) ∧
    ((run surroundings words).exitCode = 0 ↔
      Utf8.Valid payload ∧ ∃ members, Json.Document Json.Verbatim payload members) ∧
    (∀ bytes out, withoutSizing bytes = .ok out → Utf8.Valid out) ∧
    (∀ detail, (run surroundings words).fault? ≠ some (.internal detail)) ∧
    ∀ located, (run surroundings words).fault? ≠ some (.payloadEncode located) := by
  have ran : run surroundings words = .ran invocation (surroundings.hears invocation.level)
      (printWithoutSizing (.ok payload)) := by
    rw [run,asked]
    show Outcome.ran invocation _ (invocation.command.run surroundings) = _
    rw [command,Command.run,holds]
  have kept : (∃ members, Json.Document Kept payload members) ↔
      Utf8.Valid payload ∧ ∃ members, Json.Document Json.Verbatim payload members := by
    simp only [document_kept_iff,exists_and_left]
  have stripped : Stripped payload (run surroundings words) ∧
      ((run surroundings words).exitCode = 0 ↔ ∃ members, Json.Document Kept payload members) := by
    rw [ran]
    rcases withoutSizing_cases payload with ⟨text,members,written,left⟩ | ⟨located,none,left⟩
    · rw [printWithoutSizing_left left]
      exact ⟨.printed left rfl rfl rfl,iff_of_true rfl ⟨members,written⟩⟩
    · rw [printWithoutSizing_fault left]
      exact ⟨.refused left rfl rfl rfl,iff_of_false (show (1 : UInt8) ≠ 0 by decide) none⟩
  rw [kept] at stripped
  refine ⟨stripped.1,stripped.2,fun _ _ => valid_of_withoutSizing,fun detail ended => ?_,
    fun located ended => ?_⟩
  · obtain ⟨_,other⟩ := stripped.1.fault_decoding ended
    contradiction
  · obtain ⟨_,other⟩ := stripped.1.fault_decoding ended
    contradiction

/-- Files that all hold the same bytes. -/
def Surroundings.holding (payload : Bytes) : Surroundings where
  environment _ := none
  file _ := .ok payload
  client := .error .invalidRequest

/-- A byte that is no UTF-8, in a text that is passed over. -/
def spoiled : Bytes :=
  word "\x7b\"a\":\x7b\"b\":[\"" ++ [0xFF] ++ word "\"]\x7d\x7d"

theorem stripSizing_outcome_spoiled :
    Stripped spoiled (run (.holding spoiled) ["strip-sizing","payload.json"]) ∧
      (run (.holding spoiled) ["strip-sizing","payload.json"]).exitCode ≠ 0 := by
  have asked : request? (Surroundings.holding spoiled).environment ["strip-sizing","payload.json"] =
      some (.run ⟨.info,false,.stripSizing "payload.json"⟩) := by rfl
  have outcome := stripSizing_outcome asked rfl rfl
  refine ⟨outcome.1,fun succeeds => ?_⟩
  obtain ⟨valid,-⟩ := outcome.2.1.mp succeeds
  exact absurd valid (by decide +kernel)

end CommandLine
end NodeAudit
