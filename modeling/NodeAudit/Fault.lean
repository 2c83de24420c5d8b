import NodeAudit.Json.Cause
import NodeAudit.Text.Ascii

/-! What can go wrong, in words, and what a controller that meets it should do next. -/
namespace NodeAudit

inductive ClientFailure where
  | api (code : Nat) (message reason : String)
  | undecodable
  | invalidRequest
  | tlsRequired
  | lineTooLong
  | service (problem : String)
  /-- Anything else that kept an answer away, in the words of the client. -/
  | other (wording : String)
deriving DecidableEq

namespace ClientFailure

def message : ClientFailure → String
  | .api code message reason =>
    "ApiError: " ++ message ++ ": " ++ reason ++
      " (ErrorResponse \x7b status: \"Failure\", message: " ++ Text.quoted message ++
      ", reason: " ++ Text.quoted reason ++ ", code: " ++ decimal code ++ " \x7d)"
  | .undecodable => "Error deserializing response"
  | .invalidRequest => "Failed to build request: failed to build request: invalid uri character"
  | .tlsRequired => "TLS required but no TLS stack selected"
  | .lineTooLong => "Error finding newline character"
  | .service problem => "ServiceError: " ++ problem
  | .other wording => wording

/-- Whether asking again may help. It does not where the cluster says that the object is not there
or in conflict. -/
def transient : ClientFailure → Bool
  | .api code _ _ => code != 404 && code != 409
  | _ => true

def notFound : ClientFailure → Bool
  | .api code _ _ => code == 404
  | _ => false

end ClientFailure

inductive Fault where
  | internal (detail : String)
  | invalidArgument (detail : String)
  | client (failure : ClientFailure)
  | ownerNotFound (kind resource : String)
  | fetch (kind name : String) (failure : ClientFailure)
  | ordinal (name : String) (problem : Ordinal.Problem)
  | payloadDecode (located : Json.Located)
  | payloadEncode (located : Json.Located)
  | renderedParse
  | unsupportedPayload (detail : String)
  | io (detail : String)
deriving DecidableEq

inductive Requeue where
  | never
  | withBackoff
  | after (seconds : Nat)
deriving DecidableEq

namespace Fault

def message : Fault → String
  | .internal detail => "Internal error: " ++ detail
  | .invalidArgument detail => "Invalid argument: " ++ detail
  | .client failure => "Kubernetes API error: " ++ failure.message
  | .ownerNotFound kind resource => kind ++ " owner reference not found on " ++ resource
  | .fetch kind name failure => "Couldn't get " ++ kind ++ "/" ++ name ++ ": " ++ failure.message
  | .ordinal name problem =>
    "String-int conversion error for generated kubelet config " ++ name ++ ": " ++ problem.message
  | .payloadDecode located => "Failed to unmarshal kubelet config: " ++ located.message
  | .payloadEncode located => "Failed to marshal kubelet config: " ++ located.message
  | .renderedParse => "Failed to parse rendered kubelet config"
  | .unsupportedPayload detail => "Unsupported file contents source: " ++ detail
  | .io detail => "IO error: " ++ detail

def transient : Fault → Bool
  | .client failure | .fetch _ _ failure => failure.transient
  | _ => false

def notFound : Fault → Bool
  | .ownerNotFound _ _ => true
  | .client failure | .fetch _ _ failure => failure.notFound
  | _ => false

/-- A missing owner may be created again soon, and a missing object later; what the input is wrong
about stays wrong until it changes. -/
def requeue : Fault → Requeue
  | .client _ => .withBackoff
  | .fetch _ _ failure => if failure.transient then .withBackoff else .after 60
  | .ownerNotFound _ _ => .after 30
  | .invalidArgument _ | .ordinal _ _ | .payloadDecode _ | .payloadEncode _ | .renderedParse
  | .unsupportedPayload _ => .never
  | .internal _ | .io _ => .withBackoff

def retryable (fault : Fault) : Bool := fault.requeue != .never

end Fault
end NodeAudit
