import NodeAudit.Trace

/-! Clusters that hold resources. A client can be any pair of answers; a cluster given by the
documents it serves is one of them. -/
namespace NodeAudit

structure Client where
  get : (kind : Kind) → String → Except ClientFailure kind.Resource
  list : (kind : Kind) → Except ClientFailure (List kind.Resource)

namespace Client

def fetch (client : Client) (kind : Kind) (name : String) :
    Trace (Except ClientFailure kind.Resource) :=
  ⟨[.call (.get kind name)], .ok (client.get kind name)⟩

def fetchAll (client : Client) (kind : Kind) :
    Trace (Except ClientFailure (List kind.Resource)) :=
  ⟨[.call (.list kind)], .ok (client.list kind)⟩

end Client

inductive Answer where
  | document (text : Bytes)
  | failure (code : Nat) (message reason : String)

structure Entry where
  kind : String
  name : String
  answer : Answer

structure Cluster where
  failWith : Option Nat := none
  entries : List Entry := []

namespace Cluster

def pathByte (b : UInt8) : Bool :=
  b == 0x21 || b == 0x22 || (0x24 ≤ b && b ≤ 0x3B) || b == 0x3D || (0x40 ≤ b && b ≤ 0x5F) ||
    (0x61 ≤ b && b != 0x7F)

/-- Whether a call is sent at all: a name must be fit for a path. -/
def sends : Call → Bool
  | .get _ name => (Utf8.bytes name).all pathByte
  | .list _ => true

private def injected (code : Nat) : ClientFailure := .api code "injected failure" "InternalError"

def get (cluster : Cluster) (kind : Kind) (name : String) : Except ClientFailure kind.Resource :=
  if !sends (.get kind name) then .error .invalidRequest
  else
    match cluster.failWith with
    | some code => .error (injected code)
    | none =>
      match cluster.entries.find? fun entry => entry.kind = kind.name ∧ entry.name = name with
      | none =>
        .error (.api 404 (kind.name ++ " " ++ "\"" ++ name ++ "\" not found") "NotFound")
      | some { answer := .failure code message reason, .. } => .error (.api code message reason)
      | some { answer := .document text, .. } =>
        (kind.codec.parse text).mapError fun _ => .undecodable

private def bracketed (texts : List Bytes) : Bytes :=
  ascii '[' :: (texts.intersperse [ascii ',']).flatten ++ [ascii ']']

/-- All resources of a kind come in one document, an object around the list of them. -/
def list (cluster : Cluster) (kind : Kind) : Except ClientFailure (List kind.Resource) :=
  match cluster.failWith with
  | some code => .error (injected code)
  | none =>
    let texts := cluster.entries.filterMap fun entry =>
      match entry.answer with
      | .document text => if entry.kind = kind.name then some text else none
      | .failure _ _ _ => none
    (Json.Read.document ((Codec.list kind.codec).read (Json.Read.depth - 1))
      (bracketed texts)).mapError fun _ => .undecodable

def client (cluster : Cluster) : Client := ⟨cluster.get, cluster.list⟩

end Cluster
end NodeAudit
