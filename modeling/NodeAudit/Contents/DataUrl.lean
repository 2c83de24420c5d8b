import NodeAudit.Contents.Base64
import NodeAudit.Text.Ascii
import NodeAudit.Text.Utf8

/-! Data URLs that carry plain text, in Base64 or percent-encoded. A percent sign before two
hexadecimal digits stands with them for one byte; any other, and every other byte, for itself. -/
namespace NodeAudit

namespace Percent

def sign : UInt8 := ascii '%'

def byte? (high low : UInt8) : Option UInt8 := do
  return UInt8.ofNat (16 * (← hex? high) + (← hex? low))

def decode : Bytes → Bytes
  | [] => []
  | [a] => [a]
  | [a, b] => [a, b]
  | a :: b :: c :: rest =>
    if a = sign then
      match byte? b c with
      | some byte => byte :: decode rest
      | none => a :: decode (b :: c :: rest)
    else a :: decode (b :: c :: rest)

def escape (b : UInt8) : Bytes :=
  [sign, ascii (hexDigit (b.toNat / 16)), ascii (hexDigit (b.toNat % 16))]

def encode (keep : UInt8 → Bool) (bytes : Bytes) : Bytes :=
  bytes.flatMap fun b => if keep b then [b] else escape b

end Percent

namespace DataUrl

def plainPrefix : String := "data:text/plain,"

def base64Prefix : String := "data:text/plain;charset=utf-8;base64,"

inductive Problem where
  | base64 (problem : Base64.Problem)
  /-- Any other source, known by what stands before its first comma. -/
  | unknown (start : String)
deriving DecidableEq

def Problem.message : Problem → String
  | .base64 problem => "invalid base64 contents: " ++ problem.message
  | .unknown start => start

def after? : List Char → List Char → Option (List Char)
  | [], text => some text
  | _ :: _, [] => none
  | c :: start, d :: text => if c = d then after? start text else none

/-- The text before the first comma, at most 64 characters of it. -/
def start (source : List Char) : String :=
  String.ofList ((source.takeWhile (· ≠ ',')).take 64)

def decode (source : String) : Except Problem Bytes :=
  match after? base64Prefix.toList source.toList with
  | some contents => (Base64.decode (Utf8.encode contents)).mapError .base64
  | none =>
    match after? plainPrefix.toList source.toList with
    | some contents => .ok (Percent.decode (Utf8.encode contents))
    | none => .error (.unknown (start source.toList))

end DataUrl
end NodeAudit
