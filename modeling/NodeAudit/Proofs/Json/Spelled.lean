import NodeAudit.Proofs.Json.Restored

/-! The texts of a value without blanks, where the members of an object may stand in any order. Each
of them is read as the compact text is. -/
namespace NodeAudit

/-- A number without a floating point. -/
def Number.Integral (x : Number) : Prop := ∃ i bounded, x = .whole i bounded

instance : DecidablePred Number.Integral
  | .whole i bounded => isTrue ⟨i,bounded,rfl⟩
  | .real _ => isFalse fun ⟨_,_,same⟩ => Number.noConfusion same

namespace Json

/-- A text of a value like its compact text, with the members of every object in some order. -/
inductive Spelled : Bytes → Json → Prop where
  | null : Spelled (word "null") .null
  | boolean {value : Bool} : Spelled (compact (.boolean value)) (.boolean value)
  | number {value : Number} : Spelled (compactNumber value) (.number value)
  | text {value : String} : Spelled (compactText value) (.text value)
  | array {items : List (Bytes × Json)} (inside : ∀ item ∈ items, Spelled item.1 item.2) :
      Spelled (compactArray (items.map (·.1))) (.array (items.map (·.2)))
  | object {members : List (String × Bytes × Json)} {listed : List (String × Json)}
      (order : (members.map fun member => (member.1,member.2.2)).Perm listed)
      (inside : ∀ member ∈ members, Spelled member.2.1 member.2.2) :
      Spelled (compactObject (members.map fun member => (member.1,member.2.1))) (.object listed)

theorem spelled_array {items : List Json} (inside : ∀ item ∈ items, Spelled (compact item) item) :
    Spelled (compact (.array items)) (.array items) := by
  have spelled := @Spelled.array (items.map fun item => (compact item,item))
    (List.forall_mem_map.mpr inside)
  simpa only [List.map_map,Function.comp_def,List.map_id',compact,compactItems_eq_map] using spelled

theorem spelled_object {members : List (String × Json)}
    (inside : ∀ member ∈ members, Spelled (compact member.2) member.2) :
    Spelled (compact (.object members)) (.object members) := by
  have spelled := @Spelled.object (members.map fun member => (member.1,compact member.2,member.2))
    members (by simp only [List.map_map,Function.comp_def,Prod.mk.eta,List.map_id',List.Perm.refl])
    (List.forall_mem_map.mpr inside)
  simpa only [List.map_map,Function.comp_def,compact,compactMembers_eq_map] using spelled

mutual

/-- The compact text itself has the members in the order of the value. -/
theorem spelled_compact (value : Json) : Spelled (compact value) value :=
  match value with
  | .null => .null
  | .boolean _ => .boolean
  | .number _ => .number
  | .text _ => .text
  | .array items => spelled_array (spelled_items items)
  | .object members => spelled_object (spelled_members members)

theorem spelled_items (items : List Json) : ∀ item ∈ items, Spelled (compact item) item :=
  match items with
  | [] => List.forall_mem_nil _
  | item :: items => List.forall_mem_cons.mpr ⟨spelled_compact item,spelled_items items⟩

theorem spelled_members (members : List (String × Json)) :
    ∀ member ∈ members, Spelled (compact member.2) member.2 :=
  match members with
  | [] => List.forall_mem_nil _
  | (_,value) :: members =>
    List.forall_mem_cons.mpr ⟨spelled_compact value,spelled_members members⟩

end

theorem Spelled.of_array {text : Bytes} {items : List Json} (spelled : Spelled text (.array items)) :
    ∃ parts, List.Forall₂ Spelled parts items ∧ text = compactArray parts := by
  generalize same : Json.array items = value at spelled
  cases spelled with
  | @array listed inside =>
    obtain rfl := array.inj same
    refine ⟨listed.map (·.1),?_,rfl⟩
    rwa [List.forall₂_map_left_iff,List.forall₂_map_right_iff,List.forall₂_same]
  | _ => contradiction

theorem Spelled.of_object {text : Bytes} {listed : List (String × Json)}
    (spelled : Spelled text (.object listed)) : ∃ members entries, members.Perm listed ∧
      List.Forall₂ (Pair Spelled) entries members ∧ text = compactObject entries := by
  generalize same : Json.object listed = value at spelled
  cases spelled with
  | @object members _ order inside =>
    obtain rfl := object.inj same
    refine ⟨_,_,order,?_,rfl⟩
    rw [List.forall₂_map_left_iff,List.forall₂_map_right_iff,List.forall₂_same]
    exact fun member given => ⟨rfl,inside member given⟩
  | _ => contradiction

theorem Spelled.written {text : Bytes} {value : Json} (spelled : Spelled text value) :
    Written .value text := by
  induction spelled with
  | null => exact .null
  | boolean => exact (proper_compact _).1
  | number => exact (proper_number _).1
  | text => exact (proper_text _).1
  | @array items _ ih =>
    have verbatim : List.Forall₂ Verbatim (items.map (·.1)) (items.map (·.1)) :=
      List.forall₂_same.mpr (List.forall_mem_map.mpr fun item given => ⟨ih item given,rfl⟩)
    exact sequence_written (fun _ _ verbatim => verbatim.1) (sequence_compact verbatim)
  | object _ _ ih =>
    refine object_written (fun _ _ verbatim => verbatim.1) (object_compact (pairs_verbatim ?_))
    exact List.forall_mem_map.mpr ih

theorem compactNumber_head (x : Number) :
    ∃ b t, compactNumber x = b :: t ∧ Read.blank b = false ∧ b ≠ ascii 'n' := by
  obtain ⟨negative,s,shape,number,-⟩ := Read.recovers_number x
  cases negative with
  | true => exact ⟨_,_,shape,by decide,by decide⟩
  | false =>
    obtain ⟨b,t,whole,digit⟩ := Skip.magnitude_head number
    obtain ⟨ink,other⟩ := Skip.digit_plain digit
    exact ⟨b,t,shape.trans whole,ink,other _ (by decide)⟩

/-- Nothing but null begins as null does. -/
theorem Spelled.head {text : Bytes} {value : Json} (spelled : Spelled text value)
    (given : value ≠ .null) : ∃ b t, text = b :: t ∧ Read.blank b = false ∧ b ≠ ascii 'n' := by
  cases spelled with
  | null => contradiction
  | @boolean value => cases value <;> exact ⟨_,_,rfl,by decide,by decide⟩
  | number => exact compactNumber_head _
  | text | array | object => exact ⟨_,_,rfl,by decide,by decide⟩

/-- Whatever reading to a depth gave, each of its texts means it with its numbers restored. -/
theorem Spelled.means {depth : Nat} {text : Bytes} {v : Json} (spelled : Spelled text v)
    (readable : Readable depth v) : Means depth text (renumber Number.restored v) := by
  induction spelled generalizing depth with
  | null => exact means_mono (Nat.zero_le _) (show Means 0 _ _ from .null)
  | boolean => exact Readable.restored readable
  | number => exact Readable.restored readable
  | text => exact Readable.restored readable
  | @array items _ ih =>
    generalize same : Json.array _ = v at readable
    cases readable with
    | @array depth _ inside =>
      obtain rfl := array.inj same
      rw [renumber,renumberItems_eq_map,List.map_map]
      refine .array rfl (sequence_compact ?_)
      rw [List.forall₂_map_left_iff,List.forall₂_map_right_iff,List.forall₂_same]
      exact fun item given => ih item given (inside _ (List.mem_map_of_mem given))
    | _ => contradiction
  | @object members listed order _ ih =>
    generalize same : Json.object listed = v at readable
    cases readable with
    | @object depth map inside =>
      obtain rfl := object.inj same
      -- The text has the members in an order of its own, which the map it means forgets.
      rw [renumber_object,means_object_iff]
      have renamed := order.map fun member => (member.1,renumber Number.restored member.2)
      rw [List.map_map] at renamed
      refine ⟨_,object_compact ?_,(SortedMap.ofList_perm renamed).symm⟩
      refine List.forall₂_map_left_iff.mpr (List.forall₂_map_right_iff.mpr
        (List.forall₂_same.mpr fun member given => ⟨rfl,ih member given ?_⟩))
      exact inside (member.1,member.2.2) (order.subset (List.mem_map.mpr ⟨member,given,rfl⟩))
    | _ => contradiction

/-- A value that each of its texts means. -/
def Steady (depth : Nat) (v : Json) : Prop := ∀ text, Spelled text v → Means depth text v

/-- No number in the value has a floating point. -/
def Integral (v : Json) : Prop := ∀ x ∈ numbers v, x.Integral

instance (v : Json) : Decidable v.Integral :=
  inferInstanceAs (Decidable (∀ x ∈ numbers v, x.Integral))

theorem steady_of_whole {depth : Nat} {v : Json} (readable : Readable depth v)
    (whole : v.Integral) : Steady depth v := by
  have same : renumber Number.restored v = v := by
    refine ((renumber_eq_iff Number.restored id v).mpr fun x given => ?_).trans (renumber_id v)
    obtain ⟨i,bounded,rfl⟩ := whole x given
    exact restored_whole i bounded
  exact fun text spelled => same ▸ spelled.means readable

theorem steady_text (depth : Nat) (content : String) : Steady depth (.text content) :=
  steady_of_whole .text (List.forall_mem_nil _)

/-- What holds of every pair with the second member in hand holds of the two lists. -/
theorem forall₂_of_mem {α β : Type} {R S : α → β → Prop} {as : List α} {bs : List β}
    (related : List.Forall₂ R as bs) (each : ∀ b ∈ bs, ∀ a, R a b → S a b) :
    List.Forall₂ S as bs := by
  induction related with
  | nil => exact .nil
  | cons one _ ih =>
    obtain ⟨first,others⟩ := List.forall_mem_cons.mp each
    exact .cons (first _ one) (ih others)

theorem steady_array {depth : Nat} {items : List Json} (each : ∀ item ∈ items, Steady depth item) :
    Steady (depth + 1) (.array items) := by
  intro text spelled
  obtain ⟨parts,written,rfl⟩ := spelled.of_array
  exact .array rfl (sequence_compact (forall₂_of_mem written fun item given => each item given))

theorem steady_object {depth : Nat} {map : SortedMap Json}
    (each : ∀ member ∈ map.entries, Steady depth member.2) :
    Steady (depth + 1) (.object map.entries) := by
  intro text spelled
  obtain ⟨members,entries,order,written,rfl⟩ := spelled.of_object
  rw [means_object_iff]
  refine ⟨members,object_compact (forall₂_of_mem written ?_),(SortedMap.ofList_perm order).symm⟩
  exact fun member given entry pair => ⟨pair.1,each member (order.subset given) _ pair.2⟩

end Json
end NodeAudit
