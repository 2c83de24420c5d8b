import NodeAudit.Proofs.Json.Meaning

/-! What every value that was read is like: it is nested no deeper than reading goes, and each name
stands once in an object. -/
namespace NodeAudit.Json

/-- The values that reading to a depth may give. -/
inductive Readable : Nat → Json → Prop where
  | null {depth : Nat} : Readable depth .null
  | boolean {depth : Nat} {value : Bool} : Readable depth (.boolean value)
  | number {depth : Nat} {value : Number} : Readable depth (.number value)
  | text {depth : Nat} {value : String} : Readable depth (.text value)
  | array {depth : Nat} {items : List Json} (inside : ∀ item ∈ items, Readable depth item) :
      Readable (depth + 1) (.array items)
  | object {depth : Nat} {map : SortedMap Json}
      (inside : ∀ member ∈ map.entries, Readable depth member.2) :
      Readable (depth + 1) (.object map.entries)

/-- What a text means is readable, where what stands in it means readable values. -/
theorem Element.readable {depth : Nat} {inner : Option (Bytes → Json → Prop)}
    (nested : ∀ value, inner = some value →
      ∃ less, depth = less + 1 ∧ ∀ v a, value v a → Readable less a)
    {s : Bytes} {v : Json} (element : Element inner s v) : Readable depth v := by
  cases element with
  | null => exact .null
  | true | false => exact .boolean
  | positive | negative => exact .number
  | text => exact .text
  | array same sequence =>
    obtain ⟨less,rfl,each⟩ := nested _ same
    refine .array fun item inside => ?_
    obtain ⟨v,value⟩ := sequence.values item inside
    exact each v item value
  | object same object =>
    obtain ⟨less,rfl,each⟩ := nested _ same
    refine .object fun member inside => ?_
    obtain ⟨v,value⟩ := object.values member (SortedMap.mem_of_mem_ofList inside)
    exact each v member.2 value

theorem means_readable {depth : Nat} {s : Bytes} {v : Json} (means : Means depth s v) :
    Readable depth v := by
  induction depth generalizing s v with
  | zero => exact means.readable fun _ impossible => by cases impossible
  | succ depth ih =>
    refine means.readable fun value nested => ⟨depth,rfl,fun v a given => ?_⟩
    obtain rfl := Option.some.inj nested
    exact ih given

theorem Read.readable_value {depth : Nat} {s rest : Bytes} {v : Json}
    (passed : value depth s = .ok (v,rest)) : Readable depth v := by
  obtain ⟨_,_,_,means,_⟩ := (reads_value depth).sound _ _ _ passed
  exact means_readable means

end NodeAudit.Json
