import NodeAudit.Proofs.Codec.Restored

/-! What a field may make of its record. What every field keeps, a record does, from a text or from
a value, in whichever form it is given. -/
namespace NodeAudit
open Json Json.Read

namespace Field
variable {ρ : Type}

/-- What a field may make of a record, from a text or a value that is nested at most as deep as the
number tells. -/
def Makes (field : Field ρ) (depth : Nat) (x y : ρ) : Prop :=
  (∃ s rest, field.read x depth s = .ok (y,rest)) ∨ ∃ v, Readable depth v ∧ field.ofJson x v = .ok y

theorem of_makes {α : Type} {name : String} {codec : Codec α} {get : ρ → α} {set : ρ → α → ρ}
    {depth : Nat} {x y : ρ} (makes : (Field.of name codec get set).Makes depth x y) :
    ∃ a, codec.Made depth a ∧ y = set x a := by
  obtain ⟨s,rest,read⟩ | ⟨v,readable,given⟩ := makes
  · obtain ⟨⟨a,_⟩,found,passed⟩ := bind_eq_ok.mp read
    obtain ⟨rfl,-⟩ := Prod.mk.inj (Except.ok.inj passed)
    exact ⟨a,.inl ⟨_,_,found⟩,rfl⟩
  · change set x <$> codec.ofJson v = _ at given
    obtain ⟨a,found,rfl⟩ := map_eq_ok.mp given
    exact ⟨a,.inr ⟨v,readable,found⟩,rfl⟩

end Field

namespace Codec
variable {ρ : Type} {fields : List (Field ρ)} {depth : Nat} {blank r x : ρ} {P : ρ → Prop}

theorem field?_mem {name : String} {field : Field ρ} (found : field? fields name = some field) :
    field ∈ fields ∧ field.name = name :=
  ⟨List.mem_of_find?_eq_some found,by simpa using List.find?_some found⟩

theorem field?_of_mem (names : (fields.map Field.name).Nodup) {field : Field ρ}
    (member : field ∈ fields) : field? fields field.name = some field := by
  cases found : field? fields field.name with
  | none =>
    have other := List.find?_eq_none.mp found field member
    simp at other
  | some other =>
    obtain ⟨inside,named⟩ := field?_mem found
    rw [List.inj_on_of_nodup_map names inside member named]

variable (each : ∀ field ∈ fields, ∀ x y, field.Makes depth x y → P x → P y)
include each

theorem fromItems_keeps {short : Nat → Misfit} {index : Nat} {items rest : List Json} {found : ρ}
    (inside : ∀ item ∈ items, Readable depth item) (start : P x)
    (passed : fromItems short index fields items x = .ok (found,rest)) : P found := by
  induction fields generalizing index items x with
  | nil =>
    obtain ⟨rfl,-⟩ := Prod.mk.inj (Except.ok.inj passed)
    exact start
  | cons field fields ih =>
    obtain ⟨one,others⟩ := List.forall_mem_cons.mp each
    cases items with
    | nil =>
      rw [fromItems] at passed
      split at passed
      next => contradiction
      next => exact ih others inside start passed
    | cons item items =>
      obtain ⟨readable,later⟩ := List.forall_mem_cons.mp inside
      obtain ⟨next,read,passed⟩ := bind_eq_ok.mp passed
      exact ih others later (one _ _ (.inr ⟨item,readable,read⟩) start) passed

theorem fromMembers_keeps {found : ρ} (inside : ∀ member ∈ listed, Readable depth member.2)
    (start : P x) (passed : fromMembers fields listed x = .ok found) : P found := by
  induction listed generalizing x with
  | nil => exact Except.ok.inj passed ▸ start
  | cons member listed ih =>
    obtain ⟨readable,others⟩ := List.forall_mem_cons.mp inside
    obtain ⟨next,step,passed⟩ := bind_eq_ok.mp passed
    refine ih others ?_ passed
    dsimp only at step
    split at step
    next field known => exact each field (field?_mem known).1 _ _ (.inr ⟨_,readable,step⟩) start
    next => exact Except.ok.inj step ▸ start

/-- What every field keeps, a strict record does, from a text or a value in whichever form. -/
theorem strict_keeps {name : String} (start : P blank)
    (made : (strict name blank fields).Made (depth + 1) r) : P r := by
  obtain ⟨s,rest,read⟩ | ⟨v,readable,given⟩ := made
  · exact strict_preserves start (fun field member x s y rest holds read =>
      each field member x y (.inl ⟨s,rest,read⟩) holds) read
  · cases readable with
    | array inside =>
      obtain ⟨⟨found,left⟩,items,given⟩ := bind_eq_ok.mp given
      cases left with
      | nil => exact Except.ok.inj given ▸ fromItems_keeps each inside start items
      | cons => contradiction
    | object inside =>
      obtain ⟨found,told,given⟩ := bind_eq_ok.mp given
      split at given
      next => contradiction
      next => exact Except.ok.inj given ▸ fromMembers_keeps each inside start told
    | _ => contradiction

theorem readLenient_keeps {key : String} {s rest : Bytes} {y : ρ} (start : P x)
    (passed : readLenient fields depth x key s = .ok (y,rest)) : P y := by
  rw [readLenient] at passed
  split at passed
  next =>
    obtain ⟨_,-,passed⟩ := bind_eq_ok.mp passed
    obtain ⟨_,-,passed⟩ := bind_eq_ok.mp passed
    obtain ⟨rfl,-⟩ := Prod.mk.inj (Except.ok.inj passed)
    exact start
  next field known =>
    obtain ⟨after,-,read⟩ := bind_eq_ok.mp passed
    exact each field (field?_mem known).1 x y (.inl ⟨after,rest,read⟩) start

theorem lenient_keeps {name : String} (start : P blank)
    (made : (lenient name blank fields).Made (depth + 1) r) : P r := by
  obtain ⟨s,rest,read⟩ | ⟨v,readable,given⟩ := made
  · obtain ⟨t,left,-,inside,-⟩ := lenient_ok read
    exact members_preserve (fun x key s y rest => readLenient_keeps each) start inside
  · cases readable with
    | object inside => exact fromMembers_keeps each inside start given
    | _ => contradiction

end Codec
end NodeAudit
