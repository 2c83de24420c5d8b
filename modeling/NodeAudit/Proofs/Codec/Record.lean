import NodeAudit.Codec.Record
import NodeAudit.Proofs.Json.Object

/-! What was read where a record could be read: what reading one field of it preserves, reading the
whole record does. -/
namespace NodeAudit
open Json

/-- A field that keeps to an invariant of its record wherever it is read. -/
def Field.Preserves {ρ : Type} (depth : Nat) (P : ρ → Prop) (field : Field ρ) : Prop :=
  ∀ record s next rest, P record → field.read record depth s = .ok (next,rest) → P next

theorem Field.of_preserves {ρ α : Type} {name : String} {codec : Codec α} {get : ρ → α}
    {set : ρ → α → ρ} {depth : Nat} {P : ρ → Prop}
    (each : ∀ record a s rest, P record → codec.read depth s = .ok (a,rest) → P (set record a)) :
    (Field.of name codec get set).Preserves depth P := by
  intro record s next rest start passed
  obtain ⟨⟨a,_⟩,read,passed⟩ := Json.Read.bind_eq_ok.mp passed
  obtain ⟨rfl,-⟩ := Prod.mk.inj (Except.ok.inj passed)
  exact each record a _ _ start read

theorem Field.need_preserves {ρ α : Type} {name : String} {codec : Codec α} {get : ρ → α}
    {set : ρ → α → ρ} {depth : Nat} {P : ρ → Prop}
    (each : ∀ record a s rest, P record → codec.read depth s = .ok (a,rest) → P (set record a)) :
    (Field.need name codec get set).Preserves depth P :=
  @of_preserves ρ α name codec get set depth P each

namespace Codec
open Json.Read
variable {ρ : Type} {depth : Nat} {P : ρ → Prop} {fields : List (Field ρ)}

theorem atByte_ok {α : Type} {read : UInt8 → Bytes → Except Stop (α × Bytes)} {s rest : Bytes}
    {a : α} (passed : atByte read s = .ok (a,rest)) :
    ∃ b t, skipBlanks s = b :: t ∧ read b t = .ok (a,rest) := by
  rw [atByte] at passed
  split at passed
  next => contradiction
  next b t left => exact ⟨b,t,left,passed⟩

/-- What is read behind an opening bracket is read one level further down. -/
theorem within_ok {α : Type} {depth : Nat} {b : UInt8} {t rest : Bytes}
    {read : Nat → Bytes → Except Stop (α × Bytes)} {a : α}
    (passed : within depth b t read = .ok (a,rest)) :
    ∃ inner, depth = inner + 1 ∧ read inner t = .ok (a,rest) := by
  cases depth with
  | zero => contradiction
  | succ inner => exact ⟨inner,rfl,passed⟩

theorem optional_ok {α : Type} {codec : Codec α} {depth : Nat} {s rest : Bytes} {found : Option α}
    (passed : codec.optional.read depth s = .ok (found,rest)) :
    (found = none ∧ skipBlanks s = word "null" ++ rest) ∨
      ∃ a, found = some a ∧ codec.read depth (skipBlanks s) = .ok (a,rest) := by
  simp only [optional] at passed
  split at passed
  next b t left =>
    split at passed
    next letter =>
      obtain ⟨rfl,rfl⟩ := word_ok passed
      exact .inl ⟨rfl,by rw [left,letter]; rfl⟩
    next =>
      obtain ⟨⟨a,_⟩,read,passed⟩ := bind_eq_ok.mp passed
      obtain ⟨rfl,rfl⟩ := Prod.mk.inj (Except.ok.inj passed)
      exact .inr ⟨a,rfl,left ▸ read⟩
  next => contradiction

theorem missing?_eq_none_iff {seen : List String} : missing? fields seen = none ↔
    ∀ field ∈ fields, field.required = true → field.name ∈ seen := by
  rw [missing?,Option.map_eq_none_iff,List.find?_eq_none]
  refine forall_congr' fun field => forall_congr' fun _ => ?_
  simp

/-- A member of a strict record is skipped if its name is unknown, and else read by its field, which
was not given before. -/
theorem readStrict_ok {draft next : Draft ρ} {key : String} {s rest : Bytes}
    (passed : readStrict fields depth draft key s = .ok (next,rest)) :
    ∃ after, colon s = .ok after ∧
      ((field? fields key = none ∧ next = draft ∧ Skip.value after = .ok rest) ∨
        ∃ field record, field? fields key = some field ∧ key ∉ draft.seen ∧
          field.read draft.record depth after = .ok (record,rest) ∧
          next = ⟨record,key :: draft.seen⟩) := by
  rw [readStrict] at passed
  split at passed
  next unknown =>
    obtain ⟨after,separated,passed⟩ := bind_eq_ok.mp passed
    obtain ⟨_,skipped,passed⟩ := bind_eq_ok.mp passed
    obtain ⟨rfl,rfl⟩ := Prod.mk.inj (Except.ok.inj passed)
    exact ⟨after,separated,.inl ⟨unknown,rfl,skipped⟩⟩
  next field known =>
    split at passed
    next => contradiction
    next fresh =>
      obtain ⟨after,separated,passed⟩ := bind_eq_ok.mp passed
      obtain ⟨⟨record,_⟩,read,passed⟩ := bind_eq_ok.mp passed
      obtain ⟨rfl,rfl⟩ := Prod.mk.inj (Except.ok.inj passed)
      exact ⟨after,separated,.inr ⟨field,record,known,by simpa using fresh,read,rfl⟩⟩

/-- A strict record is an array of its fields, or an object that gives all it requires. -/
theorem strict_ok {name : String} {blank record : ρ} {s rest : Bytes}
    (passed : (strict name blank fields).read depth s = .ok (record,rest)) :
    ∃ inner, depth = inner + 1 ∧
      ((∃ t left, skipBlanks s = ascii '[' :: t ∧
          readItems (tooFew name fields) inner 0 fields blank t = .ok (record,left) ∧
          closeArray left = .ok rest) ∨
        ∃ t draft left, skipBlanks s = ascii '{' :: t ∧
          Read.members (readStrict fields inner) (t.length + 1) true ⟨blank,[]⟩ t = .ok (draft,left) ∧
          missing? fields draft.seen = none ∧ draft.record = record ∧
          closeObject left = .ok rest) := by
  obtain ⟨b,t,left,passed⟩ := atByte_ok passed
  simp only at passed
  split at passed
  next bracket =>
    obtain ⟨inner,depth,passed⟩ := within_ok passed
    obtain ⟨⟨found,behind⟩,inside,passed⟩ := bind_eq_ok.mp passed
    obtain ⟨_,closed,passed⟩ := bind_eq_ok.mp passed
    obtain ⟨rfl,rfl⟩ := Prod.mk.inj (Except.ok.inj passed)
    exact ⟨inner,depth,.inl ⟨t,behind,bracket ▸ left,inside,closed⟩⟩
  split at passed
  next brace =>
    obtain ⟨inner,depth,passed⟩ := within_ok passed
    obtain ⟨⟨draft,behind⟩,inside,passed⟩ := bind_eq_ok.mp passed
    simp only at passed
    split at passed
    next => contradiction
    next complete =>
      obtain ⟨_,closed,passed⟩ := bind_eq_ok.mp passed
      obtain ⟨rfl,rfl⟩ := Prod.mk.inj (Except.ok.inj passed)
      exact ⟨inner,depth,.inr ⟨t,draft,behind,brace ▸ left,inside,complete,rfl,closed⟩⟩
  next => exact absurd passed (mismatch_error _ _ _)

/-- A lenient record is an object. -/
theorem lenient_ok {name : String} {blank record : ρ} {s rest : Bytes}
    (passed : (lenient name blank fields).read (depth + 1) s = .ok (record,rest)) :
    ∃ t left, skipBlanks s = ascii '{' :: t ∧
      Read.members (readLenient fields depth) (t.length + 1) true blank t = .ok (record,left) ∧
      closeObject left = .ok rest := by
  obtain ⟨b,t,left,passed⟩ := atByte_ok passed
  split at passed
  next => contradiction
  split at passed
  next brace =>
    obtain ⟨⟨found,behind⟩,inside,passed⟩ := bind_eq_ok.mp passed
    obtain ⟨_,closed,passed⟩ := bind_eq_ok.mp passed
    obtain ⟨rfl,rfl⟩ := Prod.mk.inj (Except.ok.inj passed)
    exact ⟨t,behind,brace ▸ left,inside,closed⟩
  next => exact absurd passed (mismatch_error _ _ _)

theorem readItems_preserve (each : ∀ field ∈ fields, field.Preserves depth P) {short : Nat → Misfit}
    {index : Nat} {record found : ρ} {s rest : Bytes} (start : P record)
    (passed : readItems short depth index fields record s = .ok (found,rest)) : P found := by
  induction fields generalizing index record s with
  | nil =>
    obtain ⟨rfl,-⟩ := Prod.mk.inj (Except.ok.inj passed)
    exact start
  | cons field fields ih =>
    obtain ⟨one,others⟩ := List.forall_mem_cons.mp each
    obtain ⟨⟨given,left⟩,_,passed⟩ := bind_eq_ok.mp passed
    cases given with
    | true =>
      obtain ⟨⟨next,left⟩,read,passed⟩ := bind_eq_ok.mp passed
      exact ih others (one _ _ _ _ start read) passed
    | false =>
      simp only at passed
      split at passed
      next => contradiction
      next => exact ih others start passed

theorem readStrict_preserve (each : ∀ field ∈ fields, field.Preserves depth P) {draft next : Draft ρ}
    {name : String} {s rest : Bytes} (start : P draft.record)
    (passed : readStrict fields depth draft name s = .ok (next,rest)) : P next.record := by
  obtain ⟨_,-,⟨-,rfl,-⟩ | ⟨field,record,known,-,read,rfl⟩⟩ := readStrict_ok passed
  · exact start
  · exact each field (List.mem_of_find?_eq_some known) _ _ _ _ start read

/-- A strict record keeps to an invariant that its blank form has and all its fields preserve, in
whichever form it is given. -/
theorem strict_preserves {name : String} {blank record : ρ} (start : P blank)
    (each : ∀ field ∈ fields, field.Preserves depth P) {s rest : Bytes}
    (passed : (strict name blank fields).read (depth + 1) s = .ok (record,rest)) : P record := by
  obtain ⟨inner,level,⟨_,_,-,items,-⟩ | ⟨_,draft,_,-,inside,-,rfl,-⟩⟩ := strict_ok passed
  · obtain rfl := Nat.succ.inj level
    exact readItems_preserve each start items
  · obtain rfl := Nat.succ.inj level
    exact @members_preserve _ _ (fun draft : Draft ρ => P draft.record)
      (fun _ _ _ _ _ => readStrict_preserve each) _ _ _ _ _ _ start inside

end Codec
end NodeAudit
