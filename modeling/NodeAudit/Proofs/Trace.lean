import NodeAudit.Trace

/-! How a run ends is told by how its steps end, whatever they log. What it does for others to see
is told in the same way, up to the step that fails. -/
namespace NodeAudit

namespace Trace
variable {α β : Type}

@[simp]
theorem outcome_pure (a : α) : (pure a : Trace α).outcome = .ok a := rfl

@[simp]
theorem outcome_bind (first : Trace α) (next : α → Trace β) :
    (first >>= next).outcome = first.outcome >>= fun a => (next a).outcome := by
  show (Trace.bind first next).outcome = _
  rw [Trace.bind]
  split
  next a ended => rw [ended]; rfl
  next fault ended => rw [ended]; rfl

@[simp]
theorem outcome_of (outcome : Except Fault α) : (of outcome).outcome = outcome := rfl

@[simp]
theorem outcome_log (origin : Origin) (level : Level) (message : String) :
    (log origin level message).outcome = .ok () := rfl

/-- The calls that a run makes and the lines that it prints, in their order. -/
def effects (trace : Trace α) : List Event :=
  trace.events.filter fun
    | .log _ _ _ => false
    | _ => true

/-- What a run does for others to see, and how it ends. -/
structure Runs (trace : Trace α) (effects : List Event) (outcome : Except Fault α) : Prop where
  does : trace.effects = effects
  ends : trace.outcome = outcome

theorem Runs.bind {first : Trace α} {next : α → Trace β} {early late : List Event} {a : α}
    {outcome : Except Fault β} (here : Runs first early (.ok a)) (there : Runs (next a) late outcome) :
    Runs (first >>= next) (early ++ late) outcome := by
  constructor
  · show (Trace.bind first next).effects = _
    rw [Trace.bind,here.ends,← here.does,← there.does]
    exact List.filter_append _ _
  · rw [outcome_bind,here.ends]
    exact there.ends

theorem Runs.fails {first : Trace α} {early : List Event} {fault : Fault}
    (here : Runs first early (.error fault)) (next : α → Trace β) :
    Runs (first >>= next) early (.error fault) := by
  constructor
  · show (Trace.bind first next).effects = _
    rw [Trace.bind,here.ends]
    exact here.does
  · rw [outcome_bind,here.ends]
    rfl

theorem bind_ok {first : Trace α} {a : α} (ended : first.outcome = .ok a) (next : α → Trace β) :
    first >>= next = ⟨first.events ++ (next a).events,(next a).outcome⟩ := by
  show Trace.bind first next = _
  rw [Trace.bind,ended]

theorem forM_log (origin : Origin) (level : Level) (message : α → String) (list : List α) :
    (list.forM fun a => log origin level (message a)) =
      ⟨list.map fun a => .log origin level (message a),.ok ()⟩ := by
  induction list with
  | nil => rfl
  | cons a list ih =>
    show (log origin level (message a) >>= fun _ => list.forM _) = _
    rw [ih]
    rfl

/-- A run that succeeds and of which nothing is to be seen but details that are logged. -/
structure Quiet (trace : Trace α) (a : α) : Prop where
  debugs : ∀ event ∈ trace.events, ∃ origin message, event = .log origin .debug message
  ends : trace.outcome = .ok a

theorem quiet_pure (a : α) : Quiet (pure a) a := ⟨List.forall_mem_nil _,rfl⟩

theorem Quiet.bind {first : Trace α} {next : α → Trace β} {a : α} {b : β} (here : Quiet first a)
    (there : Quiet (next a) b) : Quiet (first >>= next) b := by
  rw [bind_ok here.ends]
  refine ⟨fun event inside => ?_,there.ends⟩
  rcases List.mem_append.mp inside with early | late
  · exact here.debugs event early
  · exact there.debugs event late

/-- What is done by steps that do nothing is nothing. -/
theorem quiet_bind {first : Trace α} {next : α → Trace β} (here : first.effects = [])
    (there : ∀ a, (next a).effects = []) : (first >>= next).effects = [] := by
  cases ended : first.outcome with
  | ok a => exact (Runs.bind ⟨here,ended⟩ ⟨there a,rfl⟩).does
  | error fault => exact (Runs.fails ⟨here,ended⟩ next).does

theorem runs_pure (a : α) : Runs (pure a) [] (.ok a) := ⟨rfl,rfl⟩

theorem runs_of (outcome : Except Fault α) : Runs (of outcome) [] outcome := ⟨rfl,rfl⟩

theorem runs_log (origin : Origin) (level : Level) (message : String) :
    Runs (log origin level message) [] (.ok ()) :=
  ⟨rfl,rfl⟩

theorem runs_print (text : String) : Runs (print text) [.line text] (.ok ()) := ⟨rfl,rfl⟩

end Trace

/-- The call that an event is, if it is one. -/
def Event.call? : Event → Option Call
  | .call made => some made
  | _ => none

theorem Event.calls_map (calls : List Call) : (calls.map Event.call).filterMap call? = calls := by
  rw [List.filterMap_map]
  exact List.filterMap_some

namespace Trace

theorem calls_effects (trace : Trace α) : trace.calls = trace.effects.filterMap Event.call? := by
  rw [calls,effects,List.filterMap_filter]
  congr 1
  funext event
  cases event <;> rfl

/-- A run that does nothing but make calls makes just these. -/
theorem Runs.calls {trace : Trace α} {calls : List Call} {outcome : Except Fault α}
    (made : Runs trace (calls.map .call) outcome) : trace.calls = calls := by
  rw [calls_effects,made.does,Event.calls_map]

end Trace
end NodeAudit
