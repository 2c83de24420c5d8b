import NodeAudit.Contents.DataUrl
import NodeAudit.Proofs.Contents.Base64

/-! Every percent-encoding of a byte string is decoded to it, whatever it escapes besides the percent
sign and in whatever case. So whatever a data URL is made to carry is read from it. -/
namespace NodeAudit

namespace Percent

/-- A text that encodes bytes: each of them as itself, unless it is a percent sign, or as two
hexadecimal digits behind one. -/
inductive Encodes : Bytes → Bytes → Prop where
  | nil : Encodes [] []
  | kept {b : UInt8} {text bytes : Bytes} (plain : b ≠ sign) (rest : Encodes text bytes) :
      Encodes (b :: text) (b :: bytes)
  | escaped {high low b : UInt8} {text bytes : Bytes} (hex : byte? high low = some b)
      (rest : Encodes text bytes) : Encodes (sign :: high :: low :: text) (b :: bytes)

theorem decode_cons {b : UInt8} (plain : b ≠ sign) (text : Bytes) :
    decode (b :: text) = b :: decode text := by
  match text with
  | [] => rfl
  | [_] => rfl
  | _ :: _ :: _ => rw [decode,if_neg plain]

/-- What encodes bytes is decoded to them. -/
theorem decode_encodes {text bytes : Bytes} (encodes : Encodes text bytes) :
    decode text = bytes := by
  induction encodes with
  | nil => rfl
  | kept plain _ ih => rw [decode_cons plain,ih]
  | escaped hex _ ih => rw [decode,if_pos rfl,hex,ih]

theorem hex?_hexDigit {n : Nat} (small : n < 16) : hex? (ascii (hexDigit n)) = some n := by
  revert n
  decide

theorem byte?_escape (b : UInt8) :
    byte? (ascii (hexDigit (b.toNat / 16))) (ascii (hexDigit (b.toNat % 16))) = some b := by
  have bound := b.toNat_lt
  rw [byte?,hex?_hexDigit (show b.toNat / 16 < 16 by omega),
    hex?_hexDigit (show b.toNat % 16 < 16 by omega)]
  show some (UInt8.ofNat (16 * (b.toNat / 16) + b.toNat % 16)) = some b
  rw [Nat.div_add_mod,UInt8.ofNat_toNat]

/-- Escaping encodes bytes if it does not keep the percent sign. -/
theorem encodes_encode {keep : UInt8 → Bool} (escapes : keep sign = false) (bytes : Bytes) :
    Encodes (encode keep bytes) bytes := by
  induction bytes with
  | nil => exact .nil
  | cons b bytes ih =>
    rw [encode,List.flatMap_cons]
    cases kept : keep b with
    | true =>
      refine .kept ?_ ih
      rintro rfl
      rw [escapes] at kept
      contradiction
    | false => exact .escaped (byte?_escape b) ih

end Percent

namespace DataUrl

/-- A source that bytes were put into. -/
inductive Carries : String → Bytes → Prop where
  | plain {text : String} {bytes : Bytes} (encoded : Percent.Encodes (Utf8.bytes text) bytes) :
      Carries (plainPrefix ++ text) bytes
  | base64 {text : String} {bytes : Bytes} (encoded : Utf8.bytes text = Base64.encode bytes) :
      Carries (base64Prefix ++ text) bytes

theorem after?_append (start text : List Char) : after? start (start ++ text) = some text := by
  induction start with
  | nil => rfl
  | cons c start ih => rw [List.cons_append,after?,if_pos rfl,ih]

/-- Behind the words that both kinds of source begin with they differ. -/
theorem after?_plain (text : List Char) :
    after? base64Prefix.toList (plainPrefix.toList ++ text) = none := by rfl

theorem decode_carries {source : String} {bytes : Bytes} (carries : Carries source bytes) :
    decode source = .ok bytes := by
  cases carries with
  | plain encoded =>
    rw [decode,String.toList_append,after?_plain,after?_append]
    exact congrArg Except.ok (Percent.decode_encodes encoded)
  | base64 encoded =>
    rw [decode,String.toList_append,after?_append]
    show (Base64.decode (Utf8.bytes _)).mapError _ = _
    rw [encoded,Base64.decode_encode]
    rfl

end DataUrl
end NodeAudit
