import NodeAudit.Proofs.Codec.Kept

/-! The parts of a record. Each field reads and writes one of them and keeps the others, so that
parts may be put in place in whatever order. -/
namespace NodeAudit
open Json Json.Read

/-- A field with the part of its record that it reads and writes. -/
structure Slot (ρ : Type) where
  field : Field ρ
  Part : Type
  get : ρ → Part
  set : ρ → Part → ρ
  get_set : ∀ x part, get (set x part) = part
  makes : ∀ depth x y, field.Makes depth x y → ∃ part, y = set x part
  shown : field.required = true → ∀ x, field.toJson x ≠ none

namespace Slot
variable {ρ α : Type}

def of (name : String) (codec : Codec α) (get : ρ → α) (set : ρ → α → ρ)
    (get_set : ∀ x a, get (set x a) = a := by exact fun _ _ => rfl) : Slot ρ where
  field := .of name codec get set
  Part := α
  get
  set
  get_set
  makes _ _ _ makes := (Field.of_makes makes).imp fun _ made => made.2
  shown := nofun

def need (name : String) (codec : Codec α) (get : ρ → α) (set : ρ → α → ρ)
    (get_set : ∀ x a, get (set x a) = a := by exact fun _ _ => rfl) : Slot ρ :=
  { of name codec get set get_set with
    field := .need name codec get set
    shown := nofun }

def maybe (name : String) (codec : Codec α) (get : ρ → Option α) (set : ρ → Option α → ρ)
    (get_set : ∀ x a, get (set x a) = a := by exact fun _ _ => rfl) : Slot ρ :=
  { of name codec.optional get set get_set with
    field := .maybe name codec get set
    shown := nofun }

def filled [Inhabited α] (name : String) (codec : Codec α) (get : ρ → α) (set : ρ → α → ρ)
    (get_set : ∀ x a, get (set x a) = a := by exact fun _ _ => rfl) : Slot ρ where
  field := .filled name codec get set
  Part := α
  get
  set
  get_set
  makes _ _ _ makes := by
    obtain ⟨o,-,made⟩ :=
      @Field.of_makes ρ _ name codec.optional (fun record => some (get record)) _ _ _ _ makes
    exact ⟨o.getD default,made⟩
  shown := nofun

/-- Slots of different names for parts that do not overlap. -/
@[mk_iff] structure Apart (a b : Slot ρ) : Prop where
  names : a.field.name ≠ b.field.name
  first : ∀ x part, a.get (b.set x part) = a.get x
  second : ∀ x part, b.get (a.set x part) = b.get x

instance : Std.Symm (@Apart ρ) := ⟨fun _ _ apart => ⟨apart.names.symm,apart.second,apart.first⟩⟩

/-- A part that is as it was at first, or was read. -/
def Got (slot : Slot ρ) (depth : Nat) (blank r : ρ) : Prop :=
  slot.get r = slot.get blank ∨ ∃ x y, slot.field.Makes depth x y ∧ slot.get r = slot.get y

/-- A part that is put back from all that it may be written as, and is as it was at first where it
is not written. -/
structure Restores (slot : Slot ρ) (depth : Nat) (blank r : ρ) : Prop where
  value : ∀ v, slot.field.toJson r = some v →
    ∀ x, slot.field.ofJson x v = .ok (slot.set x (slot.get r))
  steady : ∀ v, slot.field.toJson r = some v → Steady depth v
  text : ∀ v, slot.field.toJson r = some v → ∀ x before text rest, Blanks before →
    Spelled text v → Delimited rest →
    slot.field.read x depth (before ++ (text ++ rest)) = .ok (slot.set x (slot.get r),rest)
  hidden : slot.field.toJson r = none → slot.get r = slot.get blank

section
variable {name : String} {codec : Codec α} {depth : Nat} {blank r : ρ}

/-- A field that reads by a codec puts back what the codec gives back. -/
theorem restores_of_codec {slot : Slot ρ} {f : ρ → α → ρ} {a : α}
    (value : ∀ x v, slot.field.ofJson x v = f x <$> codec.ofJson v)
    (text : ∀ x s, slot.field.read x depth s = do
      let (a,rest) ← codec.read depth s
      return (f x a,rest))
    (placed : ∀ x, f x a = slot.set x (slot.get r)) (restores : codec.Restores depth a)
    (written : ∀ v, slot.field.toJson r = some v → v = codec.toJson a)
    (hidden : slot.field.toJson r = none → slot.get r = slot.get blank) :
    slot.Restores depth blank r where
  value v shown x := by
    rw [value,written v shown,restores.value,← placed]
    rfl
  steady v shown := written v shown ▸ restores.steady
  text v shown x before part rest blanks spelled delimited := by
    rw [written v shown] at spelled
    rw [text,restores.text before part rest blanks spelled delimited,← placed]
    rfl
  hidden

theorem of_restores {get : ρ → α} {set : ρ → α → ρ} {get_set : ∀ x a, get (set x a) = a}
    (restores : codec.Restores depth (get r)) :
    (of name codec get set get_set).Restores depth blank r :=
  restores_of_codec (fun _ _ => rfl) (fun _ _ => rfl) (fun _ => rfl) restores
    (fun _ written => (Option.some.inj written).symm) nofun

theorem need_restores {get : ρ → α} {set : ρ → α → ρ} {get_set : ∀ x a, get (set x a) = a}
    (restores : codec.Restores depth (get r)) :
    (need name codec get set get_set).Restores depth blank r :=
  restores_of_codec (fun _ _ => rfl) (fun _ _ => rfl) (fun _ => rfl) restores
    (fun _ written => (Option.some.inj written).symm) nofun

/-- What is not written must not have been there at first. -/
theorem maybe_restores {get : ρ → Option α} {set : ρ → Option α → ρ}
    {get_set : ∀ x a, get (set x a) = a} (start : get blank = none)
    (restores : codec.optional.Restores depth (get r)) :
    (maybe name codec get set get_set).Restores depth blank r := by
  refine restores_of_codec (a := get r) (fun _ _ => rfl) (fun _ _ => rfl) (fun _ => rfl) restores
    ?_ ?_
  · intro v written
    obtain ⟨a,given,rfl⟩ := Option.map_eq_some_iff.mp written
    rw [given]
    rfl
  · intro absent
    exact (show get r = none from Option.map_eq_none_iff.mp absent).trans start.symm

theorem filled_restores [Inhabited α] {get : ρ → α} {set : ρ → α → ρ}
    {get_set : ∀ x a, get (set x a) = a} (restores : codec.optional.Restores depth (some (get r))) :
    (filled name codec get set get_set).Restores depth blank r :=
  restores_of_codec (f := fun x a => set x (a.getD default)) (fun _ _ => rfl) (fun _ _ => rfl)
    (fun _ => rfl) restores (fun _ written => (Option.some.inj written).symm) nofun

theorem of_got {get : ρ → α} {set : ρ → α → ρ} {get_set : ∀ x a, get (set x a) = a}
    (got : (of name codec get set get_set).Got depth blank r)
    (start : codec.Made depth (get blank)) : codec.Made depth (get r) := by
  obtain same | ⟨x,y,makes,same⟩ := got
  · exact (show get r = get blank from same) ▸ start
  · obtain ⟨a,made,rfl⟩ := Field.of_makes makes
    rwa [show get r = a from same.trans (get_set x a)]

theorem need_got {get : ρ → α} {set : ρ → α → ρ} {get_set : ∀ x a, get (set x a) = a}
    (got : (need name codec get set get_set).Got depth blank r)
    (start : codec.Made depth (get blank)) : codec.Made depth (get r) :=
  @of_got ρ α name codec depth blank r get set get_set got start

theorem maybe_got {get : ρ → Option α} {set : ρ → Option α → ρ}
    {get_set : ∀ x a, get (set x a) = a} (got : (maybe name codec get set get_set).Got depth blank r)
    (start : codec.optional.Made depth (get blank)) : codec.optional.Made depth (get r) :=
  @of_got ρ _ name codec.optional depth blank r get set get_set got start

end

end Slot

/-- The fields of a record, each with its part. The parts do not overlap and make up the record. -/
structure Layout {ρ : Type} (fields : List (Field ρ)) where
  slots : List (Slot ρ)
  same : slots.map Slot.field = fields
  apart : slots.Pairwise Slot.Apart := by
    simp [Slot.apart_iff,Slot.of,Slot.need,Slot.maybe,Slot.filled,Field.of,Field.need,Field.maybe,
      Field.filled]
  whole : ∀ x y, (∀ slot ∈ slots, slot.get x = slot.get y) → x = y := by
    rintro ⟨⟩ ⟨⟩ same
    simpa [Slot.of,Slot.need,Slot.maybe,Slot.filled] using same

namespace Layout
variable {ρ : Type} {fields : List (Field ρ)} (layout : Layout fields)

theorem apart_of_ne {a b : Slot ρ} (first : a ∈ layout.slots) (second : b ∈ layout.slots)
    (different : a ≠ b) : a.Apart b :=
  layout.apart.forall first second different

include layout in
theorem names : (fields.map Field.name).Nodup := by
  obtain ⟨slots,rfl,apart,_⟩ := layout
  exact List.pairwise_map.mpr (List.pairwise_map.mpr (apart.imp Slot.Apart.names))

theorem eq_of_name {a b : Slot ρ} (first : a ∈ layout.slots) (second : b ∈ layout.slots)
    (same : a.field.name = b.field.name) : a = b :=
  Classical.byContradiction fun different =>
    (layout.apart_of_ne first second different).names same

def slot? (name : String) : Option (Slot ρ) :=
  layout.slots.find? fun slot => slot.field.name = name

theorem slot?_eq_some {name : String} {slot : Slot ρ} :
    layout.slot? name = some slot ↔ slot ∈ layout.slots ∧ slot.field.name = name := by
  constructor
  · intro found
    exact ⟨List.mem_of_find?_eq_some found,by simpa using List.find?_some found⟩
  · rintro ⟨member,named⟩
    cases found : layout.slot? name with
    | none =>
      have other := List.find?_eq_none.mp found slot member
      simp [named] at other
    | some other =>
      have known := List.mem_of_find?_eq_some found
      have called : other.field.name = name := by simpa using List.find?_some found
      rw [layout.eq_of_name member known (named.trans called.symm)]

theorem field?_eq (name : String) :
    Codec.field? fields name = (layout.slot? name).map Slot.field := by
  obtain ⟨slots,rfl,_,_⟩ := layout
  exact List.find?_map

/-- Puts the part of a name in place, as it is in `r`. -/
def put (r x : ρ) (name : String) : ρ :=
  match layout.slot? name with
  | some slot => slot.set x (slot.get r)
  | none => x

theorem put_known {name : String} {field : Field ρ}
    (found : Codec.field? fields name = some field) : ∃ slot ∈ layout.slots, slot.field = field ∧
      ∀ r x, layout.put r x name = slot.set x (slot.get r) := by
  obtain ⟨slot,known,rfl⟩ := Option.map_eq_some_iff.mp (layout.field?_eq name ▸ found)
  refine ⟨slot,(layout.slot?_eq_some.mp known).1,rfl,fun r x => ?_⟩
  rw [put,known]

theorem put_unknown {name : String} (unknown : Codec.field? fields name = none) (r x : ρ) :
    layout.put r x name = x := by
  rw [layout.field?_eq,Option.map_eq_none_iff] at unknown
  rw [put,unknown]

theorem get_put {slot : Slot ρ} (member : slot ∈ layout.slots) (r x : ρ) (name : String) :
    slot.get (layout.put r x name) =
      if slot.field.name = name then slot.get r else slot.get x := by
  rw [put]
  split
  next other found =>
    obtain ⟨known,named⟩ := layout.slot?_eq_some.mp found
    by_cases same : slot.field.name = name
    · obtain rfl := layout.eq_of_name member known (same.trans named.symm)
      rw [if_pos same,slot.get_set]
    · rw [if_neg same]
      refine (layout.apart_of_ne member known ?_).first _ _
      rintro rfl
      exact same named
  next none =>
    have other : slot.field.name ≠ name := by
      intro same
      rw [layout.slot?_eq_some.mpr ⟨member,same⟩] at none
      contradiction
    rw [if_neg other]

/-- Once every part that differs was put in place, in whatever order, the record is the same. -/
theorem foldl_put {α : Type} {r x : ρ} {listed : List (String × α)}
    (others : ∀ slot ∈ layout.slots, slot.field.name ∉ listed.map (·.1) → slot.get x = slot.get r) :
    listed.foldl (fun x entry => layout.put r x entry.1) x = r := by
  induction listed generalizing x with
  | nil => exact layout.whole x r fun slot member => others slot member List.not_mem_nil
  | cons entry listed ih =>
    -- A part that the first entry put in place is right, whether or not a later one does so again.
    refine ih fun slot member absent => ?_
    rw [layout.get_put member]
    split
    next => rfl
    next different =>
      refine others slot member fun inside => ?_
      rcases List.mem_cons.mp inside with here | later
      · exact different here
      · exact absent later

end Layout

namespace Codec
variable {ρ : Type} {fields : List (Field ρ)} {depth : Nat} {blank r : ρ}

/-- Every field keeps the parts of the others. -/
theorem got_keeps (layout : Layout fields) : ∀ field ∈ fields, ∀ x y, field.Makes depth x y →
    (∀ slot ∈ layout.slots, slot.Got depth blank x) →
    ∀ slot ∈ layout.slots, slot.Got depth blank y := by
  intro field member x y makes holds slot inside
  obtain ⟨other,known,rfl⟩ := List.mem_map.mp (layout.same ▸ member)
  by_cases same : slot = other
  · subst same
    exact .inr ⟨x,y,makes,rfl⟩
  · obtain ⟨part,rfl⟩ := other.makes depth x y makes
    have kept := (layout.apart_of_ne inside known same).first x part
    obtain first | ⟨before,after,made,found⟩ := holds slot inside
    · exact .inl (kept.trans first)
    · exact .inr ⟨before,after,made,kept.trans found⟩

theorem strict_got (layout : Layout fields) {name : String}
    (made : (strict name blank fields).Made (depth + 1) r) :
    ∀ slot ∈ layout.slots, slot.Got depth blank r :=
  strict_keeps (got_keeps layout) (fun _ _ => .inl rfl) made

theorem lenient_got (layout : Layout fields) {name : String}
    (made : (lenient name blank fields).Made (depth + 1) r) :
    ∀ slot ∈ layout.slots, slot.Got depth blank r :=
  lenient_keeps (got_keeps layout) (fun _ _ => .inl rfl) made

end Codec
end NodeAudit
