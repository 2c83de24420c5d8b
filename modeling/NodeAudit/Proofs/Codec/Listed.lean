import NodeAudit.Proofs.Codec.Filled
import NodeAudit.Proofs.Codec.Told

/-! Which values a strict record is read from, and as what. A value lists members for the fields of
the record, by name or by position, and each part of the record is what its own member gives. -/
namespace NodeAudit
open Json Json.Read

namespace Codec
variable {ρ : Type} {fields : List (Field ρ)} {blank x r : ρ}

/-- Reading by position is reading members of the fields' names, as far as the items go. -/
theorem fromItems_iff {all : List (Field ρ)} {short : Nat → Misfit} {index : Nat}
    {items rest : List Json} (known : ∀ field ∈ fields, field? all field.name = some field) :
    fromItems short index fields items x = .ok (r,rest) ↔
      rest = items.drop fields.length ∧
      fromMembers all ((fields.map Field.name).zip items) x = .ok r ∧
      ∀ field ∈ fields.drop items.length, field.required = false := by
  induction fields generalizing index items x with
  | nil =>
    constructor
    · intro passed
      obtain ⟨rfl,rfl⟩ := Prod.mk.inj (Except.ok.inj passed)
      refine ⟨rfl,rfl,?_⟩
      rw [List.drop_nil]
      exact List.forall_mem_nil _
    · rintro ⟨rfl,passed,-⟩
      obtain rfl := Except.ok.inj passed
      rfl
  | cons field fields ih =>
    obtain ⟨one,others⟩ := List.forall_mem_cons.mp known
    cases items with
    | nil =>
      rw [fromItems,List.zip_nil_right,List.length_nil,List.drop_zero,List.drop_nil,
        List.forall_mem_cons]
      cases need : field.required with
      | true => simp
      | false =>
        rw [if_neg Bool.false_ne_true,ih others,List.zip_nil_right,List.length_nil,List.drop_zero,
          List.drop_nil]
        simp
    | cons item items =>
      rw [fromItems,bind_eq_ok,List.map_cons,List.zip_cons_cons,fromMembers_known one]
      simp only [ih others,List.length_cons,List.drop_succ_cons]
      constructor
      · rintro ⟨y,read,done,later,rest⟩
        exact ⟨done,⟨y,read,later⟩,rest⟩
      · rintro ⟨done,⟨y,read,later⟩,rest⟩
        exact ⟨y,read,done,later,rest⟩

/-- No record is asked for a field that comes too late to be given. -/
theorem missing?_take (names : (fields.map Field.name).Nodup) (count : Nat) :
    missing? fields ((fields.map Field.name).take count) = none ↔
      ∀ field ∈ fields.drop count, field.required = false := by
  rw [missing?_eq_none_iff,← List.map_take]
  rw [← List.take_append_drop count fields,List.map_append] at names
  have apart := (List.nodup_append.mp names).2.2
  constructor
  · intro all field late
    refine Bool.eq_false_iff.mpr fun required => ?_
    have early := all field (List.mem_of_mem_drop late) required
    exact apart _ early _ (List.mem_map_of_mem late) rfl
  · intro free field member required
    rw [← List.take_append_drop count fields,List.mem_append] at member
    obtain early | late := member
    · exact List.mem_map_of_mem early
    · rw [free field late] at required
      contradiction

theorem strict_array_iff {name : String} {items : List Json} :
    (strict name blank fields).ofJson (.array items) = .ok r ↔
      fromItems (tooFew name fields) 0 fields items blank = .ok (r,[]) := by
  refine bind_eq_ok.trans ⟨?_,fun passed => ⟨_,passed,rfl⟩⟩
  rintro ⟨⟨record,rest⟩,passed,done⟩
  cases rest with
  | nil => exact Except.ok.inj done ▸ passed
  | cons => contradiction

theorem strict_object_iff {name : String} {members : List (String × Json)} :
    (strict name blank fields).ofJson (.object members) = .ok r ↔
      fromMembers fields members blank = .ok r ∧ missing? fields (members.map (·.1)) = none := by
  refine bind_eq_ok.trans ?_
  cases missing? fields (members.map (·.1)) with
  | none => simp [pure,Except.pure]
  | some reason => simp

/-- A strict record is read from the members that a value lists for its fields. -/
theorem strict_ofJson_lists (names : (fields.map Field.name).Nodup) {name : String} {v : Json} :
    (strict name blank fields).ofJson v = .ok r ↔
      ∃ members, Lists (fields.map Field.name) v members ∧
        fromMembers fields members blank = .ok r ∧ missing? fields (members.map (·.1)) = none := by
  cases v with
  | array items =>
    have known : ∀ field ∈ fields, field? fields field.name = some field :=
      fun _ => field?_of_mem names
    have short : [] = items.drop fields.length ↔ items.length ≤ (fields.map Field.name).length := by
      rw [eq_comm,List.drop_eq_nil_iff,List.length_map]
    rw [strict_array_iff,fromItems_iff known,short,← missing?_take names,← names_zip]
    constructor
    · rintro ⟨few,passed⟩
      exact ⟨_,.array few,passed⟩
    · rintro ⟨_,lists,passed⟩
      cases lists with
      | array few => exact ⟨few,passed⟩
  | object members =>
    rw [strict_object_iff]
    constructor
    · intro passed
      exact ⟨_,.object,passed⟩
    · rintro ⟨_,lists,passed⟩
      cases lists with
      | object => exact passed
  | null | boolean | number | text =>
    constructor
    · nofun
    · rintro ⟨_,⟨⟩,-⟩

/-- Each part of a strict record is what its own member gives. -/
theorem strict_ofJson_iff (layout : Layout fields) (uniform : ∀ slot ∈ layout.slots, slot.Uniform)
    {name : String} {v : Json} (ordered : v.Ordered) :
    (strict name blank fields).ofJson v = .ok r ↔
      ∃ members, Lists (fields.map Field.name) v members ∧
        ∀ slot ∈ layout.slots, slot.Reads blank r (Entries.find? slot.field.name members) := by
  rw [strict_ofJson_lists layout.names]
  refine exists_congr fun members => and_congr_right fun lists => ?_
  rw [fromMembers_iff layout uniform (lists.distinct layout.names ordered),missing?_eq_none_iff]
  have there : ∀ slot : Slot ρ,
      slot.field.name ∈ members.map (·.1) ↔ Entries.find? slot.field.name members ≠ none := by
    intro slot
    simp [Entries.find?_eq_none_iff]
  constructor
  · rintro ⟨fills,given⟩ slot member
    refine ⟨fills slot member,fun required => (there slot).mp ?_⟩
    exact given slot.field (layout.same ▸ List.mem_map_of_mem member) required
  · intro reads
    refine ⟨fun slot member => (reads slot member).1,fun field member required => ?_⟩
    obtain ⟨slot,inside,rfl⟩ := List.mem_map.mp (layout.same ▸ member)
    exact (there slot).mpr ((reads slot inside).2 required)

section
variable {α : Type} {codec : Codec α}

theorem string_ofJson_iff (v : Json) (s : String) : string.ofJson v = .ok s ↔ v = .text s := by
  cases v <;> simp [string]

theorem whole_ofJson_iff (expected : String) (ofInt? : Int → Option α) (toNumber : α → Number)
    (v : Json) (a : α) : (whole expected ofInt? toNumber).ofJson v = .ok a ↔
      ∃ i bounded, v = .number (.whole i bounded) ∧ ofInt? i = some a := by
  constructor
  · intro passed
    cases v with
    | number value =>
      cases value with
      | whole i bounded =>
        refine ⟨i,bounded,rfl,?_⟩
        simp only [whole,judge] at passed
        split at passed
        next b given => exact given.trans (congrArg some (Except.ok.inj passed))
        next => contradiction
      | real => contradiction
    | _ => contradiction
  · rintro ⟨i,bounded,rfl,given⟩
    simp only [whole,judge,given]

theorem uint32_ofJson_iff (v : Json) (n : UInt32) :
    uint32.ofJson v = .ok n ↔ ∃ bounded, v = .number (.whole n.toNat bounded) := by
  have below := n.toNat_lt
  rw [uint32,whole_ofJson_iff]
  constructor
  · rintro ⟨i,bounded,rfl,given⟩
    split at given
    next fits =>
      obtain rfl := Option.some.inj given
      have kept := UInt32.toNat_ofNat_of_lt' (show i.toNat < 4294967296 by omega)
      have same : i = (UInt32.ofNat i.toNat).toNat := by omega
      refine ⟨by omega,?_⟩
      congr 2
    next => contradiction
  · rintro ⟨bounded,rfl⟩
    refine ⟨_,bounded,rfl,?_⟩
    rw [if_pos (by omega),Int.toNat_natCast,UInt32.ofNat_toNat]

theorem optional_ofJson_iff (v : Json) (o : Option α) :
    codec.optional.ofJson v = .ok o ↔ Nullable (fun v a => codec.ofJson v = .ok a) v o := by
  by_cases there : v = .null
  · subst there
    constructor
    · intro passed
      obtain rfl := Except.ok.inj passed
      exact .null
    · rintro (_ | ⟨there,-⟩)
      · rfl
      · contradiction
  · rw [optional_ofJson codec there,map_eq_ok]
    constructor
    · rintro ⟨a,given,rfl⟩
      exact .value there given
    · rintro (_ | ⟨-,given⟩)
      · contradiction
      · exact ⟨_,given,rfl⟩

theorem mapM_ofJson_iff {items : List Json} {reads : Json → α → Prop}
    (same : ∀ v ∈ items, ∀ a, codec.ofJson v = .ok a ↔ reads v a) (list : List α) :
    items.mapM codec.ofJson = .ok list ↔ List.Forall₂ reads items list := by
  induction items generalizing list with
  | nil => cases list <;> simp [pure,Except.pure]
  | cons v items ih =>
    obtain ⟨first,others⟩ := List.forall_mem_cons.mp same
    rw [List.mapM_cons,bind_eq_ok]
    constructor
    · rintro ⟨a,one,passed⟩
      obtain ⟨rest,later,passed⟩ := bind_eq_ok.mp passed
      obtain rfl := Except.ok.inj passed
      exact .cons ((first a).mp one) ((ih others rest).mp later)
    · rintro (_ | ⟨one,later⟩)
      exact ⟨_,(first _).mpr one,bind_eq_ok.mpr ⟨_,(ih others _).mpr later,rfl⟩⟩

theorem list_ofJson_iff {v : Json} (ordered : v.Ordered) {reads : Json → α → Prop}
    (same : ∀ w a, w.Ordered → (codec.ofJson w = .ok a ↔ reads w a)) (list : List α) :
    codec.list.ofJson v = .ok list ↔ ∃ items, v = .array items ∧ List.Forall₂ reads items list := by
  have inside (items : List Json) (ordered : (Json.array items).Ordered) :
      ∀ w ∈ items, ∀ a, codec.ofJson w = .ok a ↔ reads w a := by
    obtain ⟨_,_ | _ | _ | _ | each⟩ := ordered
    exact fun w member a => same w a ⟨_,each w member⟩
  constructor
  · intro passed
    cases v with
    | array items => exact ⟨items,rfl,(mapM_ofJson_iff (inside items ordered) list).mp passed⟩
    | _ => contradiction
  · rintro ⟨items,rfl,each⟩
    exact (mapM_ofJson_iff (inside items ordered) list).mpr each

end

end Codec

theorem Laid.ofJson_iff {ρ : Type} {codec : Codec ρ} (laid : Laid .strict codec)
    (uniform : ∀ slot ∈ laid.layout.slots, slot.Uniform) {v : Json} (ordered : v.Ordered) {r : ρ} :
    codec.ofJson v = .ok r ↔ ∃ members, Lists (laid.fields.map Field.name) v members ∧
      ∀ slot ∈ laid.layout.slots,
        slot.Reads laid.blank r (Entries.find? slot.field.name members) := by
  obtain ⟨rfl,layout⟩ := laid
  exact Codec.strict_ofJson_iff layout uniform ordered

section
variable {ρ α : Type} {codec : Codec α} {get : ρ → α} {set : ρ → α → ρ}

def Layout.single (key : String) (codec : Codec α) (get_set : ∀ x a, get (set x a) = a)
    (whole : ∀ x y, get x = get y → x = y) : Layout [.of key codec get set] where
  slots := [.of key codec get set get_set]
  same := rfl
  apart := List.pairwise_singleton _ _
  whole x y equal := whole x y (equal _ List.mem_cons_self)

/-- A record of one part is what its only field gives. -/
theorem Codec.single_ofJson_iff {name key : String} {blank r : ρ}
    (get_set : ∀ x a, get (set x a) = a) (whole : ∀ x y, get x = get y → x = y) {v : Json}
    (ordered : v.Ordered) {reads : Json → α → Prop}
    (same : ∀ w a, w.Ordered → (codec.ofJson w = .ok a ↔ reads w a)) :
    (strict name blank [.of key codec get set]).ofJson v = .ok r ↔ ∃ members,
      Lists [key] v members ∧ Given reads (get blank) (Entries.find? key members) (get r) := by
  have uniform : ∀ slot ∈ (Layout.single key codec get_set whole).slots, slot.Uniform :=
    List.forall_mem_singleton.mpr Slot.of_uniform
  rw [strict_ofJson_iff _ uniform ordered]
  refine exists_congr fun members => and_congr_right fun lists => ?_
  refine List.forall_mem_singleton.trans ((Slot.of_reads_iff _ _ _).trans ?_)
  exact lists.given_congr ordered same _ _ _

end
end NodeAudit
