import NodeAudit.Kubelet.Rendered
import NodeAudit.Proofs.Contents.DataUrl
import NodeAudit.Proofs.Contents.Scanned
import NodeAudit.Proofs.Contents.Strict

/-! What the sources of files decode to: Base64 in its canonical form only, percent-encoded text
whatever it is. -/
namespace NodeAudit.Kubelet

theorem contents_base64Prefix (text : String) : contents (DataUrl.base64Prefix ++ text) =
    (Base64.decode (Utf8.bytes text)).mapError fun problem =>
      .unsupportedPayload (DataUrl.Problem.base64 problem).message := by
  rw [contents,DataUrl.decode,String.toList_append,DataUrl.after?_append]
  show ((Base64.decode (Utf8.bytes text)).mapError _).mapError _ = _
  cases Base64.decode (Utf8.bytes text) <;> rfl

theorem contents_plainPrefix (text : String) :
    contents (DataUrl.plainPrefix ++ text) = .ok (Percent.decode (Utf8.bytes text)) := by
  rw [contents,DataUrl.decode,String.toList_append,DataUrl.after?_plain,DataUrl.after?_append]
  rfl

/-- A source in Base64 is decoded to the bytes that its text is the Base64 of, and refused if there
are none. -/
theorem contents_base64_iff (text : String) :
    (∀ bytes, contents (DataUrl.base64Prefix ++ text) = .ok bytes ↔ text = Base64.text bytes) ∧
      ((∃ problem, contents (DataUrl.base64Prefix ++ text) =
          .error (.unsupportedPayload (DataUrl.Problem.base64 problem).message)) ↔
        ∀ bytes, text ≠ Base64.text bytes) := by
  have canonical (bytes : Bytes) : text = Base64.text bytes ↔
      Base64.decode (Utf8.bytes text) = .ok bytes := by
    rw [Base64.decode_eq_ok_iff,Base64.bytes_eq_encode_iff]
  simp only [contents_base64Prefix,canonical,ne_eq]
  cases Base64.decode (Utf8.bytes text) with
  | ok found =>
    refine ⟨fun bytes => ?_,?_⟩
    · show Except.ok found = Except.ok bytes ↔ _
      rw [Except.ok.injEq,Except.ok.injEq]
    constructor
    · rintro ⟨_,impossible⟩
      contradiction
    · intro none
      exact absurd rfl (none found)
  | error problem =>
    refine ⟨fun bytes => ⟨nofun,nofun⟩,?_⟩
    constructor
    · intro _ bytes impossible
      contradiction
    · intro _
      exact ⟨problem,rfl⟩

/-- Any text is a percent-encoded source. It is decoded as it is scanned, and thereby to the bytes
that it encodes. -/
theorem contents_percent (text : String) :
    (∃ bytes, contents (DataUrl.plainPrefix ++ text) = .ok bytes) ∧
      (∀ bytes, contents (DataUrl.plainPrefix ++ text) = .ok bytes ↔
        Percent.Scan (Utf8.bytes text) bytes) ∧
      ∀ bytes, Percent.Written text.toList bytes →
        contents (DataUrl.plainPrefix ++ text) = .ok bytes := by
  rw [contents_plainPrefix]
  refine ⟨⟨_,rfl⟩,fun bytes => ?_,fun bytes written => ?_⟩
  · rw [Except.ok.injEq,Percent.scan_iff]
  · exact congrArg Except.ok (Percent.decode_encodes written.encodes)

/-- A percent sign, a plus, a character of two bytes, and a byte that is part of none. -/
theorem contents_percent_mixed :
    Percent.Written "%25+é%fF".toList [0x25,0x2B,0xC3,0xA9,0xFF] ∧
      contents (DataUrl.plainPrefix ++ "%25+é%fF") = .ok [0x25,0x2B,0xC3,0xA9,0xFF] := by
  have digit (b : UInt8) (n : Nat) (known : hex? b = some n) : Percent.Digit b n :=
    (Percent.hex?_eq_some_iff b n).mp known
  have last : Percent.Written "%fF".toList [0xFF] :=
    .escaped (digit 0x66 15 rfl) (digit 0x46 15 rfl) .nil
  have accented : Percent.Written "é%fF".toList [0xC3,0xA9,0xFF] :=
    .kept (show 'é' ≠ '%' by decide) last
  have plus : Percent.Written "+é%fF".toList [0x2B,0xC3,0xA9,0xFF] :=
    .kept (show '+' ≠ '%' by decide) accented
  have written : Percent.Written "%25+é%fF".toList [0x25,0x2B,0xC3,0xA9,0xFF] :=
    .escaped (digit 0x32 2 rfl) (digit 0x35 5 rfl) plus
  exact ⟨written,(contents_percent _).2.2 _ written⟩

end NodeAudit.Kubelet
