import NodeAudit.Kubelet.Owner
import NodeAudit.Proofs.Trace

/-! The way from a pool to its kubelet config: which calls it takes, and how it ends where a stage
of it fails. -/
namespace NodeAudit.Kubelet

/-- No kubelet config comes first among the owners of a machine config, whatever comes after. -/
def Unowned (config : MachineConfig) : Prop :=
  ∀ owner others, config.metadata.ownerReferences = some (owner :: others) →
    owner.kind ≠ "KubeletConfig"

/-- The calls made to find the kubelet config of a pool, and the end of the search. -/
inductive Lookup (pool : MachineConfigPool) (client : Client) :
    List Call → Except Fault (Option (MachineConfig × KubeletConfig)) → Prop where
  | unused (without : (latestGenerated pool).outcome = .ok none) : Lookup pool client [] (.ok none)
  | unranked {fault : Fault} (fails : (latestGenerated pool).outcome = .error fault) :
      Lookup pool client [] (.error fault)
  | missing {name : String} {failure : ClientFailure}
      (newest : (latestGenerated pool).outcome = .ok (some name))
      (fails : client.get .machineConfig name = .error failure) :
      Lookup pool client [.get .machineConfig name] (.error (.fetch "MachineConfig" name failure))
  | unowned {name : String} {config : MachineConfig}
      (newest : (latestGenerated pool).outcome = .ok (some name))
      (found : client.get .machineConfig name = .ok config) (other : Unowned config) :
      Lookup pool client [.get .machineConfig name]
        (.error (.ownerNotFound "KubeletConfig" config.metadata.anyName))
  | orphaned {name : String} {config : MachineConfig} {owner : OwnerReference}
      {others : List OwnerReference} {failure : ClientFailure}
      (newest : (latestGenerated pool).outcome = .ok (some name))
      (found : client.get .machineConfig name = .ok config)
      (owned : config.metadata.ownerReferences = some (owner :: others))
      (kind : owner.kind = "KubeletConfig")
      (fails : client.get .kubeletConfig owner.name = .error failure) :
      Lookup pool client [.get .machineConfig name,.get .kubeletConfig owner.name]
        (.error (.fetch "KubeletConfig" owner.name failure))
  | owned {name : String} {config : MachineConfig} {owner : OwnerReference}
      {others : List OwnerReference} {kubelet : KubeletConfig}
      (newest : (latestGenerated pool).outcome = .ok (some name))
      (found : client.get .machineConfig name = .ok config)
      (owned : config.metadata.ownerReferences = some (owner :: others))
      (kind : owner.kind = "KubeletConfig")
      (last : client.get .kubeletConfig owner.name = .ok kubelet) :
      Lookup pool client [.get .machineConfig name,.get .kubeletConfig owner.name]
        (.ok (some (config,kubelet)))

theorem ownerName?_eq_none_iff (config : MachineConfig) :
    ownerName? config = none ↔ Unowned config := by
  rw [ownerName?,Metadata.owner?,Unowned]
  rcases config.metadata.ownerReferences with _ | (_ | ⟨owner,others⟩)
  · simp
  · simp
  · simp [show Kind.kubeletConfig.name = "KubeletConfig" from rfl]

theorem ownerName?_eq_some_iff (config : MachineConfig) (name : String) :
    ownerName? config = some name ↔ ∃ owner others,
      config.metadata.ownerReferences = some (owner :: others) ∧ owner.kind = "KubeletConfig" ∧
        owner.name = name := by
  rw [ownerName?,Metadata.owner?]
  rcases config.metadata.ownerReferences with _ | (_ | ⟨owner,others⟩)
  · simp
  · simp
  · simp [show Kind.kubeletConfig.name = "KubeletConfig" from rfl]

theorem runs_latestGenerated (pool : MachineConfigPool) :
    Trace.Runs (latestGenerated pool) [] (latestGenerated pool).outcome := by
  refine ⟨Trace.quiet_bind rfl fun newest => ?_,rfl⟩
  cases newest with
  | none => rfl
  | some newest => rfl

/-- Fetching a resource is one call, and its failure is reported with what was asked for. -/
theorem runs_obtain (client : Client) (kind : Kind) (name : String) :
    Trace.Runs (obtain client kind name) [.call (.get kind name)]
      ((client.get kind name).mapError (.fetch kind.name name)) := by
  have asked : Trace.Runs (client.fetch kind name) [.call (.get kind name)]
      (.ok (client.get kind name)) := ⟨rfl,rfl⟩
  refine asked.bind ?_
  cases client.get kind name with
  | error failure => exact Trace.runs_of _
  | ok resource => exact Trace.runs_pure resource

theorem obtain_ok {client : Client} {kind : Kind} {name : String} {resource : kind.Resource}
    (found : client.get kind name = .ok resource) :
    Trace.Runs (obtain client kind name) [.call (.get kind name)] (.ok resource) := by
  have run := runs_obtain client kind name
  rwa [found] at run

theorem obtain_error {client : Client} {kind : Kind} {name : String} {failure : ClientFailure}
    (fails : client.get kind name = .error failure) :
    Trace.Runs (obtain client kind name) [.call (.get kind name)]
      (.error (.fetch kind.name name failure)) := by
  have run := runs_obtain client kind name
  rwa [fails] at run

theorem owner_unowned {config : MachineConfig} (other : Unowned config) (client : Client) :
    Trace.Runs (owner (some config) client) []
      (.error (.ownerNotFound "KubeletConfig" config.metadata.anyName)) := by
  have quiet : Trace.Runs (logOtherOwner config) [] (.ok ()) := by
    rw [logOtherOwner]
    split <;> exact ⟨rfl,rfl⟩
  simp only [owner,(ownerName?_eq_none_iff config).mpr other]
  exact quiet.bind (Trace.runs_of _)

theorem owner_owned {config : MachineConfig} {owner : OwnerReference} {others : List OwnerReference}
    (owned : config.metadata.ownerReferences = some (owner :: others))
    (kind : owner.kind = "KubeletConfig") {client : Client} {outcome : Except Fault KubeletConfig}
    (last : Trace.Runs (obtain client .kubeletConfig owner.name)
      [.call (.get .kubeletConfig owner.name)] outcome) :
    Trace.Runs (Kubelet.owner (some config) client) [.call (.get .kubeletConfig owner.name)]
      outcome := by
  have named := (ownerName?_eq_some_iff config _).mpr ⟨owner,others,owned,kind,rfl⟩
  simp only [Kubelet.owner,named]
  exact (Trace.runs_log _ _ _).bind last

/-- Each way of searching is one that the search takes. -/
theorem runs_current {pool : MachineConfigPool} {client : Client} {calls : List Call}
    {result : Except Fault (Option (MachineConfig × KubeletConfig))}
    (lookup : Lookup pool client calls result) :
    Trace.Runs (current pool client) (calls.map .call) result := by
  have start := runs_latestGenerated pool
  cases lookup with
  | unused without =>
    rw [without] at start
    exact start.bind ((Trace.runs_log _ _ _).bind (Trace.runs_pure none))
  | unranked fails =>
    rw [fails] at start
    exact start.fails _
  | missing newest fails =>
    rw [newest] at start
    exact start.bind ((obtain_error fails).fails _)
  | unowned newest found other =>
    rw [newest] at start
    exact start.bind ((obtain_ok found).bind ((owner_unowned other client).fails _))
  | orphaned newest found owned kind fails =>
    rw [newest] at start
    exact start.bind ((obtain_ok found).bind ((owner_owned owned kind (obtain_error fails)).fails _))
  | owned newest found owned kind last =>
    rw [newest] at start
    exact start.bind ((obtain_ok found).bind
      ((owner_owned owned kind (obtain_ok last)).bind (Trace.runs_pure _)))

/-- Every search goes one of the ways. -/
theorem exists_lookup (pool : MachineConfigPool) (client : Client) :
    ∃ calls result, Lookup pool client calls result := by
  cases newest : (latestGenerated pool).outcome with
  | error fault => exact ⟨_,_,.unranked newest⟩
  | ok found =>
    cases found with
    | none => exact ⟨_,_,.unused newest⟩
    | some name =>
      cases found : client.get .machineConfig name with
      | error failure => exact ⟨_,_,.missing newest found⟩
      | ok config =>
        cases named : ownerName? config with
        | none => exact ⟨_,_,.unowned newest found ((ownerName?_eq_none_iff config).mp named)⟩
        | some _ =>
          obtain ⟨owner,others,owned,kind,-⟩ := (ownerName?_eq_some_iff config _).mp named
          cases last : client.get .kubeletConfig owner.name with
          | error failure => exact ⟨_,_,.orphaned newest found owned kind last⟩
          | ok kubelet => exact ⟨_,_,.owned newest found owned kind last⟩

/-- What the search does for others to see is its calls, and nothing else. -/
theorem runs_current_calls (pool : MachineConfigPool) (client : Client) :
    Trace.Runs (current pool client) ((current pool client).calls.map .call)
      (current pool client).outcome := by
  obtain ⟨calls,result,lookup⟩ := exists_lookup pool client
  have run := runs_current lookup
  rwa [run.calls,run.ends]

/-- The search fetches at most one machine config and, once that is there, at most one kubelet
config. -/
theorem current_calls_first (pool : MachineConfigPool) (client : Client) :
    ∃ name owner, (current pool client).calls <+:
      [.get .machineConfig name,.get .kubeletConfig owner] := by
  obtain ⟨calls,result,lookup⟩ := exists_lookup pool client
  rw [(runs_current lookup).calls]
  cases lookup with
  | unused | unranked => exact ⟨"","",List.nil_prefix⟩
  | missing | unowned => exact ⟨_,"",[_],rfl⟩
  | orphaned | owned => exact ⟨_,_,[],rfl⟩

/-- The search makes just the calls of its way and ends as that does. No way lists anything, or goes
on after a call that failed. -/
theorem current_calls_outcome (pool : MachineConfigPool) (client : Client) :
    (∀ calls result, ((current pool client).calls = calls ∧ (current pool client).outcome = result) ↔
      Lookup pool client calls result) ∧
    ∃ name owner, (current pool client).calls <+:
      [.get .machineConfig name,.get .kubeletConfig owner] := by
  obtain ⟨calls,result,lookup⟩ := exists_lookup pool client
  have run := runs_current lookup
  refine ⟨fun others other => ⟨?_,fun again => ?_⟩,current_calls_first pool client⟩
  · rintro ⟨rfl,rfl⟩
    rwa [run.calls,run.ends]
  · exact ⟨(runs_current again).calls,(runs_current again).ends⟩

end NodeAudit.Kubelet
