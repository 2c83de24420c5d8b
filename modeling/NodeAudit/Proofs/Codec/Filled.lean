import NodeAudit.Proofs.Codec.Slot
import NodeAudit.Proofs.Json.Listed

/-! What members of different names make of a record: each fills the part of its own name, and the
parts that have none stay as they were. -/
namespace NodeAudit
open Json Json.Read

namespace Slot
variable {ρ α : Type}

/-- A field that finds its part in the value alone. -/
def Uniform (slot : Slot ρ) : Prop :=
  ∀ x y v, slot.field.ofJson x v = .ok y →
    ∃ part, ∀ z, slot.field.ofJson z v = .ok (slot.set z part)

/-- A part is what its member gives, or as it was at first where there is none. -/
def Fills (slot : Slot ρ) (x r : ρ) : Option Json → Prop
  | none => slot.get r = slot.get x
  | some v => ∀ z, slot.field.ofJson z v = .ok (slot.set z (slot.get r))

section
variable {name : String} {codec : Codec α} {get : ρ → α} {set : ρ → α → ρ}
  {get_set : ∀ x a, get (set x a) = a}

theorem of_uniform : (of name codec get set get_set).Uniform := by
  intro x y v read
  obtain ⟨a,given,-⟩ := map_eq_ok.mp (show set x <$> codec.ofJson v = .ok y from read)
  exact ⟨a,fun z => map_eq_ok.mpr ⟨a,given,rfl⟩⟩

theorem need_uniform : (need name codec get set get_set).Uniform :=
  @of_uniform ρ α name codec get set get_set

theorem fills_some_iff (x r : ρ) (v : Json) :
    (of name codec get set get_set).Fills x r (some v) ↔ codec.ofJson v = .ok (get r) := by
  constructor
  · intro reads
    obtain ⟨a,given,same⟩ :=
      map_eq_ok.mp (show set x <$> codec.ofJson v = .ok (set x (get r)) from reads x)
    have part := congrArg get same
    rw [get_set,get_set] at part
    rw [given,part]
  · intro given z
    exact map_eq_ok.mpr ⟨get r,given,rfl⟩

theorem of_fills_iff (x r : ρ) (o : Option Json) : (of name codec get set get_set).Fills x r o ↔
    Given (fun v a => codec.ofJson v = .ok a) (get x) o (get r) := by
  cases o with
  | none =>
    constructor
    · intro same
      rw [show get r = get x from same]
      exact .absent
    · intro given
      generalize part : get r = a at given
      cases given
      exact part
  | some v =>
    rw [fills_some_iff]
    constructor
    · intro value
      exact .present value
    · intro given
      cases given with
      | present value => exact value

end

theorem Fills.congr {slot : Slot ρ} {x y : ρ} (same : slot.get x = slot.get y) (r : ρ)
    (o : Option Json) : slot.Fills x r o ↔ slot.Fills y r o := by
  cases o with
  | none => rw [Fills,Fills,same]
  | some v => exact Iff.rfl

/-- A part is filled, and its member is there where the record must have it. -/
def Reads (slot : Slot ρ) (blank r : ρ) (o : Option Json) : Prop :=
  slot.Fills blank r o ∧ (slot.field.required = true → o ≠ none)

section
variable {name : String} {codec : Codec α} {get : ρ → α} {set : ρ → α → ρ}
  {get_set : ∀ x a, get (set x a) = a}

theorem of_reads_iff (blank r : ρ) (o : Option Json) :
    (of name codec get set get_set).Reads blank r o ↔
      Given (fun v a => codec.ofJson v = .ok a) (get blank) o (get r) := by
  rw [Reads,of_fills_iff]
  exact and_iff_left nofun

theorem need_reads_iff (blank r : ρ) (o : Option Json) :
    (need name codec get set get_set).Reads blank r o ↔
      ∃ v, o = some v ∧ codec.ofJson v = .ok (get r) := by
  constructor
  · rintro ⟨fills,required⟩
    obtain ⟨v,rfl⟩ := Option.ne_none_iff_exists'.mp (required rfl)
    exact ⟨v,rfl,(@fills_some_iff ρ α name codec get set get_set blank r v).mp fills⟩
  · rintro ⟨v,rfl,given⟩
    exact ⟨(@fills_some_iff ρ α name codec get set get_set blank r v).mpr given,nofun⟩

end

end Slot

namespace Codec
variable {ρ : Type} {fields : List (Field ρ)} {blank x r : ρ}

/-- Once the first member's part is put in place, the others fill what is left. -/
theorem fills_cons (layout : Layout fields) {first : Slot ρ} (member : first ∈ layout.slots)
    {v : Json} {members : List (String × Json)}
    (fresh : Entries.find? first.field.name members = none) :
    (∀ slot ∈ layout.slots,
        slot.Fills x r (Entries.find? slot.field.name ((first.field.name,v) :: members))) ↔
      first.Fills x r (some v) ∧ ∀ slot ∈ layout.slots,
        slot.Fills (first.set x (first.get r)) r (Entries.find? slot.field.name members) := by
  have other : ∀ slot ∈ layout.slots, slot ≠ first →
      (slot.Fills x r (Entries.find? slot.field.name ((first.field.name,v) :: members)) ↔
        slot.Fills (first.set x (first.get r)) r (Entries.find? slot.field.name members)) := by
    intro slot inside different
    have apart := layout.apart_of_ne inside member different
    rw [Entries.find?_cons,if_neg apart.names.symm]
    exact Slot.Fills.congr (apart.first x _).symm r _
  have own : Entries.find? first.field.name ((first.field.name,v) :: members) = some v := by
    rw [Entries.find?_cons,if_pos rfl]
  constructor
  · intro all
    refine ⟨own ▸ all first member,fun slot inside => ?_⟩
    by_cases same : slot = first
    · rw [same,fresh]
      exact (first.get_set x _).symm
    · exact (other slot inside same).mp (all slot inside)
  · rintro ⟨here,later⟩ slot inside
    by_cases same : slot = first
    · rw [same,own]
      exact here
    · exact (other slot inside same).mpr (later slot inside)

theorem fromMembers_known {key : String} {field : Field ρ} {v : Json}
    (found : field? fields key = some field) (members : List (String × Json)) :
    fromMembers fields ((key,v) :: members) x = .ok r ↔
      ∃ y, field.ofJson x v = .ok y ∧ fromMembers fields members y = .ok r := by
  rw [fromMembers,List.foldlM_cons,bind_eq_ok]
  dsimp only
  rw [found]
  rfl

theorem fromMembers_unknown {key : String} {v : Json} (unknown : field? fields key = none)
    (members : List (String × Json)) :
    fromMembers fields ((key,v) :: members) x = fromMembers fields members x := by
  rw [fromMembers,List.foldlM_cons]
  dsimp only
  rw [unknown]
  rfl

/-- Members of different names are each read into the part of its own name. -/
theorem fromMembers_iff (layout : Layout fields) (uniform : ∀ slot ∈ layout.slots, slot.Uniform)
    {members : List (String × Json)} (distinct : members.Pairwise fun a b => a.1 ≠ b.1) :
    fromMembers fields members x = .ok r ↔ ∀ slot ∈ layout.slots,
      slot.Fills x r (Entries.find? slot.field.name members) := by
  induction members generalizing x with
  | nil =>
    constructor
    · intro same slot _
      rw [Except.ok.inj same]
      rfl
    · intro same
      exact congrArg Except.ok (layout.whole x r fun slot member => (same slot member).symm)
  | cons entry members ih =>
    obtain ⟨key,v⟩ := entry
    obtain ⟨apart,tail⟩ := List.pairwise_cons.mp distinct
    have fresh : Entries.find? key members = none :=
      (Entries.find?_eq_none_iff key members).mpr fun entry inside => (apart entry inside).symm
    cases found : field? fields key with
    | none =>
      rw [fromMembers_unknown found,ih tail]
      rw [layout.field?_eq,Option.map_eq_none_iff] at found
      refine forall_congr' fun slot => forall_congr' fun inside => ?_
      have skipped : key ≠ slot.field.name := by
        rintro rfl
        rw [layout.slot?_eq_some.mpr ⟨inside,rfl⟩] at found
        contradiction
      rw [Entries.find?_cons,if_neg skipped]
    | some field =>
      rw [fromMembers_known found]
      obtain ⟨slot,known,rfl⟩ := Option.map_eq_some_iff.mp (layout.field?_eq key ▸ found)
      obtain ⟨inside,rfl⟩ := layout.slot?_eq_some.mp known
      rw [fills_cons layout inside fresh]
      constructor
      · rintro ⟨y,read,later⟩
        obtain ⟨part,puts⟩ := uniform slot inside x y v read
        obtain rfl := Except.ok.inj (read.symm.trans (puts x))
        have rest := (ih tail).mp later
        have own : slot.get r = part := by
          have kept := rest slot inside
          rw [fresh] at kept
          exact Eq.trans kept (slot.get_set x part)
        subst own
        exact ⟨puts,rest⟩
      · rintro ⟨puts,rest⟩
        exact ⟨_,puts x,(ih tail).mpr rest⟩

end Codec
end NodeAudit
