import Mathlib.Logic.ExistsUnique
import NodeAudit.Proofs.Kubelet.Lookup
import NodeAudit.Proofs.Kubelet.Newest

/-! What a controller does about a search for a kubelet config that failed. It follows from why the
search failed, and where a call failed from how the cluster answered that call. -/
namespace NodeAudit

namespace ClientFailure

/-- The cluster answered with a code. -/
def Answers (failure : ClientFailure) (code : Nat) : Prop :=
  ∃ message reason, failure = .api code message reason

theorem notFound_iff (failure : ClientFailure) : failure.notFound = true ↔ failure.Answers 404 := by
  cases failure <;> simp [notFound,Answers]

theorem transient_iff (failure : ClientFailure) :
    failure.transient = true ↔ ¬failure.Answers 404 ∧ ¬failure.Answers 409 := by
  cases failure <;> simp [transient,Answers]

end ClientFailure

namespace Fault

/-- No fault is both that an object does not exist and that asking again may help. -/
theorem not_transient_and_notFound (fault : Fault) :
    ¬(fault.transient = true ∧ fault.notFound = true) := by
  rintro ⟨passes,absent⟩
  cases fault with
  | client failure | fetch _ _ failure =>
    have missing := (ClientFailure.notFound_iff failure).mp absent
    exact ((ClientFailure.transient_iff failure).mp passes).1 missing
  | _ => contradiction

theorem requeue_fetch (kind name : String) (failure : ClientFailure) :
    (fetch kind name failure).requeue =
      if (fetch kind name failure).transient then .withBackoff else .after 60 := rfl

theorem retryable_fetch (kind name : String) (failure : ClientFailure) :
    (fetch kind name failure).retryable = true := by
  rw [retryable,requeue_fetch]
  split <;> rfl

end Fault

namespace Kubelet

/-- Why the search for a pool's kubelet config can fail. -/
inductive Cause where
  | unranked
  | unowned
  | unfetched

/-- A fault of a cause, with the calls made up to it and what a controller does about it. -/
def Classified (client : Client) (calls : List Call) (fault : Fault) : Cause → Prop
  | .unranked => (∃ name problem, fault = .ordinal name problem) ∧ calls = [] ∧
      fault.requeue = .never ∧ fault.retryable = false ∧ fault.transient = false ∧
      fault.notFound = false
  | .unowned => (∃ kind resource, fault = .ownerNotFound kind resource) ∧
      (∃ name config, calls = [.get .machineConfig name] ∧
        client.get .machineConfig name = .ok config) ∧
      fault.requeue = .after 30 ∧ fault.retryable = true ∧ fault.transient = false ∧
      fault.notFound = true
  | .unfetched => ∃ (kind : Kind) (name : String) (failure : ClientFailure) (earlier : List Call),
      fault = .fetch kind.name name failure ∧ calls = earlier ++ [.get kind name] ∧
      client.get kind name = .error failure ∧
      (fault.notFound = true ↔ failure.Answers 404) ∧
      (fault.transient = true ↔ ¬failure.Answers 404 ∧ ¬failure.Answers 409) ∧
      (fault.requeue = if fault.transient then .withBackoff else .after 60) ∧
      fault.retryable = true

theorem classified_unique {client : Client} {calls : List Call} {fault : Fault} {one other : Cause}
    (first : Classified client calls fault one) (second : Classified client calls fault other) :
    one = other := by
  cases one <;> cases other <;> grind [Classified]

theorem unfetched {client : Client} {kind : Kind} {name : String} {failure : ClientFailure}
    (fails : client.get kind name = .error failure) (earlier : List Call) :
    Classified client (earlier ++ [.get kind name]) (.fetch kind.name name failure) .unfetched :=
  ⟨kind,name,failure,earlier,rfl,rfl,fails,ClientFailure.notFound_iff failure,
    ClientFailure.transient_iff failure,Fault.requeue_fetch _ _ _,Fault.retryable_fetch _ _ _⟩

theorem newer_fault {newest : Option Generated} {name : String} {fault : Fault}
    (fails : newer newest name = .error fault) : ∃ problem, fault = .ordinal name problem := by
  unfold newer at fails
  split at fails
  next => contradiction
  next =>
    split at fails
    next => exact ⟨_,(Except.error.inj fails).symm⟩
    next => contradiction
    next => contradiction

theorem foldlM_newer_fault {names : List String} {newest : Option Generated} {fault : Fault}
    (fails : names.foldlM newer newest = .error fault) :
    ∃ name problem, fault = .ordinal name problem := by
  induction names generalizing newest with
  | nil => contradiction
  | cons name names ih =>
    rw [List.foldlM_cons] at fails
    cases step : newer newest name with
    | error _ =>
      rw [step] at fails
      obtain rfl := Except.error.inj fails
      exact ⟨name,newer_fault step⟩
    | ok next =>
      rw [step] at fails
      exact ih fails

/-- Looking for the newest of a pool fails only at a name without a number. -/
theorem latestGenerated_fault {pool : MachineConfigPool} {fault : Fault}
    (fails : (latestGenerated pool).outcome = .error fault) :
    ∃ name problem, fault = .ordinal name problem := by
  rw [latestGenerated_of_newest pool _ rfl] at fails
  cases scan : (candidates pool).foldlM newer none with
  | error _ =>
    rw [scan] at fails
    obtain rfl := Except.error.inj fails
    exact foldlM_newer_fault scan
  | ok _ =>
    rw [scan] at fails
    contradiction

theorem exists_cause {pool : MachineConfigPool} {client : Client} {fault : Fault}
    (fails : (current pool client).outcome = .error fault) :
    ∃ cause, Classified client (current pool client).calls fault cause := by
  obtain ⟨calls,result,lookup⟩ := exists_lookup pool client
  have run := runs_current lookup
  rw [run.ends] at fails
  subst fails
  rw [run.calls]
  cases lookup with
  | unranked fails =>
    obtain ⟨name,problem,rfl⟩ := latestGenerated_fault fails
    exact ⟨.unranked,⟨name,problem,rfl⟩,rfl,rfl,rfl,rfl,rfl⟩
  | missing newest fails => exact ⟨.unfetched,unfetched fails []⟩
  | unowned newest found other =>
    exact ⟨.unowned,⟨_,_,rfl⟩,⟨_,_,rfl,found⟩,rfl,rfl,rfl,rfl⟩
  | orphaned newest found owned kind fails => exact ⟨.unfetched,unfetched fails [_]⟩

/-- A search that fails does so for one cause, which decides what a controller does about it. What
it does about a failed call is the same whether the call was to fetch or to list. -/
theorem current_fault_cause (pool : MachineConfigPool) (client : Client) :
    (∀ fault, (current pool client).outcome = .error fault →
      ∃! cause, Classified client (current pool client).calls fault cause) ∧
    (∀ failure kind name,
      (Fault.client failure).transient = (Fault.fetch kind name failure).transient ∧
      (Fault.client failure).notFound = (Fault.fetch kind name failure).notFound) ∧
    ∀ fault : Fault, ¬(fault.transient = true ∧ fault.notFound = true) := by
  refine ⟨fun fault fails => ?_,fun failure kind name => ⟨rfl,rfl⟩,
    Fault.not_transient_and_notFound⟩
  obtain ⟨cause,classified⟩ := exists_cause fails
  exact ⟨cause,classified,fun other again => classified_unique again classified⟩

/-- A cluster in which every object is being changed by someone else. -/
def conflicted : Client where
  get _ _ := .error (.api 409 "the object has been modified" "Conflict")
  list _ := .error (.api 409 "the object has been modified" "Conflict")

theorem current_fault_cause_conflicted :
    (current (mergedFrom ["00-worker","99-worker-generated-kubelet"]) conflicted).outcome =
      .error (.fetch "MachineConfig" "99-worker-generated-kubelet"
        (.api 409 "the object has been modified" "Conflict")) ∧
    ∃! cause, Classified conflicted
      (current (mergedFrom ["00-worker","99-worker-generated-kubelet"]) conflicted).calls
      (.fetch "MachineConfig" "99-worker-generated-kubelet"
        (.api 409 "the object has been modified" "Conflict")) cause :=
  ⟨rfl,(current_fault_cause _ _).1 _ rfl⟩

end Kubelet
end NodeAudit
