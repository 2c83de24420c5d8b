import NodeAudit.CommandLine.Run
import NodeAudit.Proofs.Kubelet.Lookup
import NodeAudit.Proofs.Kubelet.Verdict

/-! What a report on a pool asks of the cluster and prints, step by step, up to where it ends. -/
namespace NodeAudit
open Trace

/-- The first of the pools that a selector means. -/
def Meant (selector : Labels) (pools : List MachineConfigPool) (pool : MachineConfigPool) : Prop :=
  ∃ before after, pools = before ++ pool :: after ∧
    (∀ other ∈ before, other.matchedBy selector = false) ∧ pool.matchedBy selector = true

/-- What a report asks and prints, in this order, and how it ends. -/
inductive Reported (selector : Labels) (client : Client) : List Event → Except Fault Unit → Prop where
  | unlisted {failure : ClientFailure} (fails : client.list .machineConfigPool = .error failure) :
      Reported selector client [.call (.list .machineConfigPool)] (.error (.client failure))
  | unmatched {pools : List MachineConfigPool} (lists : client.list .machineConfigPool = .ok pools)
      (strange : ∀ pool ∈ pools, pool.matchedBy selector = false) :
      Reported selector client [.call (.list .machineConfigPool)] (.ok ())
  | astray {pools : List MachineConfigPool} {pool : MachineConfigPool} {fault : Fault}
      (lists : client.list .machineConfigPool = .ok pools) (meant : Meant selector pools pool)
      (fails : (Kubelet.current pool client).outcome = .error fault) :
      Reported selector client (.call (.list .machineConfigPool) ::
        .line ("pool: " ++ pool.metadata.name.getD "") ::
        (Kubelet.current pool client).calls.map .call) (.error fault)
  | plain {pools : List MachineConfigPool} {pool : MachineConfigPool}
      (lists : client.list .machineConfigPool = .ok pools) (meant : Meant selector pools pool)
      (without : (Kubelet.current pool client).outcome = .ok none) :
      Reported selector client (.call (.list .machineConfigPool) ::
        .line ("pool: " ++ pool.metadata.name.getD "") ::
        ((Kubelet.current pool client).calls.map .call ++
          [.line "kubeletconfig: <none>"])) (.ok ())
  | unjudged {pools : List MachineConfigPool} {pool : MachineConfigPool} {config : MachineConfig}
      {kubelet : KubeletConfig} {fault : Fault}
      (lists : client.list .machineConfigPool = .ok pools) (meant : Meant selector pools pool)
      (found : (Kubelet.current pool client).outcome = .ok (some (config,kubelet)))
      (fails : (Kubelet.isRendered kubelet config).outcome = .error fault) :
      Reported selector client (.call (.list .machineConfigPool) ::
        .line ("pool: " ++ pool.metadata.name.getD "") ::
        ((Kubelet.current pool client).calls.map .call ++
          [.line ("machineconfig: " ++ config.metadata.name.getD ""),
            .line ("kubeletconfig: " ++ kubelet.metadata.name.getD "")])) (.error fault)
  | judged {pools : List MachineConfigPool} {pool : MachineConfigPool} {config : MachineConfig}
      {kubelet : KubeletConfig} {rendered : Bool}
      (lists : client.list .machineConfigPool = .ok pools) (meant : Meant selector pools pool)
      (found : (Kubelet.current pool client).outcome = .ok (some (config,kubelet)))
      (verdict : (Kubelet.isRendered kubelet config).outcome = .ok rendered) :
      Reported selector client (.call (.list .machineConfigPool) ::
        .line ("pool: " ++ pool.metadata.name.getD "") ::
        ((Kubelet.current pool client).calls.map .call ++
          [.line ("machineconfig: " ++ config.metadata.name.getD ""),
            .line ("kubeletconfig: " ++ kubelet.metadata.name.getD ""),
            .line ("rendered: " ++ if rendered then "true" else "false")])) (.ok ())

theorem firstMatch_eq_some_iff (selector : Labels) (pools : List MachineConfigPool)
    (pool : MachineConfigPool) :
    MachineConfigPool.firstMatch selector pools = some pool ↔ Meant selector pools pool := by
  rw [MachineConfigPool.firstMatch,List.find?_eq_some_iff_append,Meant]
  constructor
  · rintro ⟨matches_,before,after,split,others⟩
    exact ⟨before,after,split,fun other member => by simpa using others other member,matches_⟩
  · rintro ⟨before,after,split,others,matches_⟩
    exact ⟨matches_,before,after,split,fun other member => by simpa using others other member⟩

/-- The verdict on a pair is reached without asking or printing. -/
theorem runs_isRendered (kubelet : KubeletConfig) (config : MachineConfig) :
    Runs (Kubelet.isRendered kubelet config) [] (Kubelet.isRendered kubelet config).outcome := by
  refine ⟨?_,rfl⟩
  rw [Kubelet.isRendered]
  split
  next => rfl
  next payload _ =>
    refine quiet_bind rfl fun file => ?_
    cases file with
    | none => rfl
    | some file =>
      refine quiet_bind rfl fun requested => quiet_bind rfl fun settings => ?_
      dsimp only
      split
      next => rfl
      next => rfl

theorem runs_printName (word : String) (metadata : Metadata) :
    Runs (printName word metadata) [.line (word ++ ": " ++ metadata.name.getD "")] (.ok ()) :=
  ⟨rfl,rfl⟩

/-- Listing the resources of a kind is one call. -/
theorem runs_enumerate (client : Client) (kind : Kind) :
    Runs (enumerate client kind) [.call (.list kind)] ((client.list kind).mapError .client) := by
  have asked : Runs (client.fetchAll kind) [.call (.list kind)] (.ok (client.list kind)) :=
    ⟨rfl,rfl⟩
  refine asked.bind ?_
  cases client.list kind with
  | error failure => exact runs_of _
  | ok resources => exact runs_pure resources

/-- A listing that succeeds leaves the report to what the first pool meant is like. -/
theorem runs_report {selector : Labels} {client : Client} {pools : List MachineConfigPool}
    (lists : client.list .machineConfigPool = .ok pools) {late : List Event}
    {outcome : Except Fault Unit}
    (after : Runs (match MachineConfigPool.firstMatch selector pools with
      | none => log .program .warn ("No MachineConfigPool matches node selector " ++
          Text.quotedMap selector.entries)
      | some pool => reportPool pool client) late outcome) :
    Runs (report selector client) (.call (.list .machineConfigPool) :: late) outcome := by
  have listed := runs_enumerate client .machineConfigPool
  rw [lists] at listed
  exact listed.bind ((runs_log _ _ _).bind after)

theorem runs_report_meant {selector : Labels} {client : Client} {pools : List MachineConfigPool}
    {pool : MachineConfigPool} (lists : client.list .machineConfigPool = .ok pools)
    (meant : Meant selector pools pool) {late : List Event} {outcome : Except Fault Unit}
    (after : Runs (reportPool pool client) late outcome) :
    Runs (report selector client) (.call (.list .machineConfigPool) :: late) outcome := by
  refine runs_report lists ?_
  rw [(firstMatch_eq_some_iff _ _ _).mpr meant]
  exact after

/-- Each way of reporting is one that the report takes. -/
theorem runs_reported {selector : Labels} {client : Client} {effects : List Event}
    {outcome : Except Fault Unit} (reported : Reported selector client effects outcome) :
    Runs (report selector client) effects outcome := by
  cases reported with
  | unlisted fails =>
    have listed := runs_enumerate client .machineConfigPool
    rw [fails] at listed
    exact listed.fails _
  | unmatched lists strange =>
    refine runs_report lists ?_
    rw [MachineConfigPool.firstMatch,List.find?_eq_none.mpr fun pool member => by
      simp [strange pool member]]
    exact runs_log _ _ _
  | @astray _ pool _ lists meant fails =>
    have search := Kubelet.runs_current_calls pool client
    rw [fails] at search
    exact runs_report_meant lists meant ((runs_printName "pool" _).bind (search.fails _))
  | @plain _ pool lists meant without =>
    have search := Kubelet.runs_current_calls pool client
    rw [without] at search
    exact runs_report_meant lists meant
      ((runs_printName "pool" _).bind (search.bind (runs_print _)))
  | @unjudged _ pool config kubelet _ lists meant found fails =>
    have search := Kubelet.runs_current_calls pool client
    have verdict := runs_isRendered kubelet config
    rw [found] at search
    rw [fails] at verdict
    exact runs_report_meant lists meant ((runs_printName "pool" _).bind (search.bind
      ((runs_printName "machineconfig" _).bind ((runs_printName "kubeletconfig" _).bind
        (verdict.fails _)))))
  | @judged _ pool config kubelet _ lists meant found judges =>
    have search := Kubelet.runs_current_calls pool client
    have verdict := runs_isRendered kubelet config
    rw [found] at search
    rw [judges] at verdict
    exact runs_report_meant lists meant ((runs_printName "pool" _).bind (search.bind
      ((runs_printName "machineconfig" _).bind ((runs_printName "kubeletconfig" _).bind
        (verdict.bind (runs_print _))))))

/-- Every report goes one of the ways. -/
theorem exists_reported (selector : Labels) (client : Client) :
    ∃ effects outcome, Reported selector client effects outcome := by
  cases lists : client.list .machineConfigPool with
  | error failure => exact ⟨_,_,.unlisted lists⟩
  | ok pools =>
    cases first : MachineConfigPool.firstMatch selector pools with
    | none =>
      refine ⟨_,_,.unmatched lists fun pool member => ?_⟩
      simpa using List.find?_eq_none.mp first pool member
    | some pool =>
      have meant := (firstMatch_eq_some_iff _ _ _).mp first
      cases found : (Kubelet.current pool client).outcome with
      | error fault => exact ⟨_,_,.astray lists meant found⟩
      | ok pair =>
        cases pair with
        | none => exact ⟨_,_,.plain lists meant found⟩
        | some pair =>
          cases verdict : (Kubelet.isRendered pair.2 pair.1).outcome with
          | error fault => exact ⟨_,_,.unjudged lists meant found verdict⟩
          | ok rendered => exact ⟨_,_,.judged lists meant found verdict⟩

/-- The calls of a way of reporting: those of the search, if it comes to one, after the listing. -/
theorem Reported.calls {selector : Labels} {client : Client} {effects : List Event}
    {outcome : Except Fault Unit} (reported : Reported selector client effects outcome) :
    effects.filterMap Event.call? = [.list .machineConfigPool] ∨
      ∃ pool, effects.filterMap Event.call? =
        .list .machineConfigPool :: (Kubelet.current pool client).calls := by
  cases reported with
  | unlisted | unmatched => exact .inl rfl
  | @astray _ pool => exact .inr ⟨pool,congrArg _ (Event.calls_map _)⟩
  | @plain _ pool | @unjudged _ pool | @judged _ pool =>
    refine .inr ⟨pool,congrArg (_ :: ·) ?_⟩
    show List.filterMap Event.call? (_ ++ _) = _
    rw [List.filterMap_append,Event.calls_map]
    exact List.append_nil _

/-- A report asks and prints just what its way says, in that order, and ends as that does. The calls
of any report are, as far as they go, for the pools, for one machine config and for one kubelet
config. -/
theorem report_effects_outcome (selector : Labels) (client : Client) :
    (∀ effects outcome, ((report selector client).effects = effects ∧
      (report selector client).outcome = outcome) ↔ Reported selector client effects outcome) ∧
    ∃ name owner, (report selector client).calls <+:
      [.list .machineConfigPool,.get .machineConfig name,.get .kubeletConfig owner] := by
  obtain ⟨effects,outcome,reported⟩ := exists_reported selector client
  have run := runs_reported reported
  refine ⟨fun others other => ⟨?_,fun again => ?_⟩,?_⟩
  · rintro ⟨rfl,rfl⟩
    rwa [run.does,run.ends]
  · exact ⟨(runs_reported again).does,(runs_reported again).ends⟩
  · rw [calls_effects,run.does]
    obtain listing | ⟨pool,search⟩ := reported.calls
    · rw [listing]
      exact ⟨"","",_,rfl⟩
    · obtain ⟨name,owner,begins⟩ := Kubelet.current_calls_first pool client
      rw [search]
      exact ⟨name,owner,List.prefix_cons_inj _ |>.mpr begins⟩

end NodeAudit
