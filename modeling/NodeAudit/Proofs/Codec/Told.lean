import NodeAudit.Proofs.Codec.Slot
import NodeAudit.Resource.Kind

/-! Records are put together again from the members that they are written with, in whatever order
these stand and whatever members of unknown names stand between them. -/
namespace NodeAudit
open Json Json.Read

namespace Codec
variable {ρ : Type} {fields : List (Field ρ)} {depth : Nat} {blank r x : ρ}
  {listed : List (String × Json)}

/-- The members that a record is written with, among which others of unknown names may be. -/
structure Tells (fields : List (Field ρ)) (r : ρ) (listed : List (String × Json)) : Prop where
  known : ∀ entry ∈ listed, ∀ field, field? fields entry.1 = some field →
    field.toJson r = some entry.2
  all : ∀ field ∈ fields, ∀ v, field.toJson r = some v → (field.name,v) ∈ listed
  distinct : listed.Pairwise fun a b => a.1 ≠ b.1

theorem Tells.perm {others : List (String × Json)} (tells : Tells fields r listed)
    (order : others.Perm listed) : Tells fields r others where
  known entry member := tells.known entry (order.subset member)
  all field member v written := order.symm.subset (tells.all field member v written)
  distinct := order.symm.pairwise tells.distinct fun apart => apart.symm

theorem mem_members_iff (names : (fields.map Field.name).Nodup) (r : ρ) (entry : String × Json) :
    entry ∈ members fields r ↔
      ∃ field ∈ fields, field.toJson r = some entry.2 ∧ field.name = entry.1 := by
  obtain ⟨key,v⟩ := entry
  have distinct : (fields.filterMap fun field =>
      (field.toJson r).map fun value => (field.name,value)).Pairwise fun a b => a.1 ≠ b.1 := by
    refine (List.pairwise_map.mp names).filterMap _ ?_
    intro one other apart first shown second follows
    obtain ⟨_,-,rfl⟩ := Option.map_eq_some_iff.mp shown
    obtain ⟨_,-,rfl⟩ := Option.map_eq_some_iff.mp follows
    exact apart
  rw [members,← SortedMap.get?_eq_some_iff,SortedMap.get?_ofList,SortedMap.final_iff_mem distinct,
    List.mem_filterMap]
  refine exists_congr fun field => and_congr_right fun _ => ?_
  rw [Option.map_eq_some_iff]
  constructor
  · rintro ⟨_,written,same⟩
    obtain ⟨rfl,rfl⟩ := Prod.mk.inj same
    exact ⟨written,rfl⟩
  · rintro ⟨written,rfl⟩
    exact ⟨v,written,rfl⟩

theorem tells_members (names : (fields.map Field.name).Nodup) (r : ρ) :
    Tells fields r (members fields r) where
  known entry member field found := by
    obtain ⟨other,inside,written,named⟩ := (mem_members_iff names r entry).mp member
    obtain ⟨known,called⟩ := field?_mem found
    rwa [List.inj_on_of_nodup_map names known inside (called.trans named.symm)]
  all field member v written := (mem_members_iff names r _).mpr ⟨field,member,written,rfl⟩
  distinct := SortedMap.distinct_entries _

section
variable (layout : Layout fields) (restores : ∀ slot ∈ layout.slots, slot.Restores depth blank r)
include restores

theorem foldl_put_tells (tells : Tells fields r listed) :
    listed.foldl (fun x entry => layout.put r x entry.1) blank = r := by
  refine layout.foldl_put fun slot member absent => ((restores slot member).hidden ?_).symm
  cases written : slot.field.toJson r with
  | none => rfl
  | some v =>
    have inside := tells.all slot.field (layout.same ▸ List.mem_map_of_mem member) v written
    exact absurd (List.mem_map_of_mem inside) absent

theorem fromMembers_put
    (known : ∀ entry ∈ listed, ∀ field, field? fields entry.1 = some field →
      field.toJson r = some entry.2) (x : ρ) :
    fromMembers fields listed x = .ok (listed.foldl (fun x entry => layout.put r x entry.1) x) := by
  induction listed generalizing x with
  | nil => rfl
  | cons entry listed ih =>
    obtain ⟨first,others⟩ := List.forall_mem_cons.mp known
    refine bind_eq_ok.mpr ⟨layout.put r x entry.1,?_,ih others _⟩
    dsimp only
    split
    next field found =>
      obtain ⟨slot,member,rfl,put⟩ := layout.put_known found
      rw [put]
      exact (restores slot member).value _ (first _ found) x
    next unknown => rw [layout.put_unknown unknown]

/-- A member of a record is read back into its part, and passed over if its name is unknown. -/
theorem member_put {entry : String × Json}
    (known : ∀ field, field? fields entry.1 = some field → field.toJson r = some entry.2) (x : ρ)
    {middle gap v rest : Bytes} (first : Blanks middle) (second : Blanks gap)
    (spelled : Spelled v entry.2) (delimited : Delimited rest) :
    readLenient fields depth x entry.1 (middle ++ ascii ':' :: (gap ++ (v ++ rest))) =
      .ok (layout.put r x entry.1,rest) := by
  have separated := (colon_iff _ (gap ++ (v ++ rest))).mpr ⟨middle,first,rfl⟩
  rw [readLenient]
  split
  next unknown =>
    rw [layout.put_unknown unknown,separated]
    show (Skip.value _ >>= _) = _
    rw [Skip.value_complete second spelled.written delimited]
    rfl
  next field found =>
    obtain ⟨slot,member,rfl,put⟩ := layout.put_known found
    rw [put,separated]
    exact (restores slot member).text _ (known _ found) x gap v rest second spelled delimited

theorem gathers_lenient
    (known : ∀ entry ∈ listed, ∀ field, field? fields entry.1 = some field →
      field.toJson r = some entry.2) (x : ρ) :
    Gathers (readLenient fields depth) Spelled x listed
      (listed.foldl (fun x entry => layout.put r x entry.1) x) := by
  induction listed generalizing x with
  | nil => exact .nil
  | cons entry listed ih =>
    obtain ⟨first,others⟩ := List.forall_mem_cons.mp known
    refine .cons (fun middle gap v rest middles gaps spelled delimited => ?_) (ih others _)
    exact member_put layout restores first x middles gaps spelled delimited

end

/-- The names of the fields seen, and a further name if it is that of a field. -/
def noted (fields : List (Field ρ)) (seen : List String) (name : String) : List String :=
  (field? fields name).elim seen fun _ => name :: seen

theorem mem_noted_iff {seen : List String} {name key : String} :
    key ∈ noted fields seen name ↔ key ∈ seen ∨ key = name ∧ (field? fields key).isSome := by
  rw [noted]
  cases found : field? fields name with
  | none =>
    refine ⟨.inl,fun either => either.resolve_right ?_⟩
    rintro ⟨rfl,known⟩
    rw [found] at known
    contradiction
  | some field =>
    constructor
    · intro member
      rcases List.mem_cons.mp member with rfl | earlier
      · exact .inr ⟨rfl,by rw [found]; rfl⟩
      · exact .inl earlier
    · rintro (earlier | ⟨rfl,-⟩)
      · exact List.mem_cons_of_mem _ earlier
      · exact List.mem_cons_self

theorem mem_foldl_noted {seen : List String} {key : String} :
    key ∈ listed.foldl (fun seen entry => noted fields seen entry.1) seen ↔
      key ∈ seen ∨ key ∈ listed.map (·.1) ∧ (field? fields key).isSome := by
  induction listed generalizing seen with
  | nil => simp
  | cons entry listed ih =>
    rw [List.foldl_cons,ih,mem_noted_iff,List.map_cons,List.mem_cons,or_and_right,or_assoc]

/-- A strict record is read as a lenient one, and the names of the fields are kept. -/
theorem readStrict_eq {draft : Draft ρ} {name : String} (fresh : name ∉ draft.seen) (s : Bytes) :
    readStrict fields depth draft name s = do
      let (record,rest) ← readLenient fields depth draft.record name s
      return (⟨record,noted fields draft.seen name⟩,rest) := by
  rw [readStrict,readLenient,noted]
  split
  next unknown =>
    rw [unknown]
    cases colon s with
    | error => rfl
    | ok after =>
      show (Skip.value after >>= _) = ((Skip.value after >>= _) >>= _)
      cases Skip.value after <;> rfl
  next field found =>
    rw [if_neg (by simpa using fresh),found]
    cases colon s with
    | error => rfl
    | ok after => rfl

/-- Where no name comes twice, members are read as those of a lenient record. -/
theorem gathers_strict {found : ρ}
    (gathers : Gathers (readLenient fields depth) Spelled x listed found)
    (distinct : listed.Pairwise fun a b => a.1 ≠ b.1) {seen : List String}
    (fresh : ∀ entry ∈ listed, entry.1 ∉ seen) :
    Gathers (readStrict fields depth) Spelled ⟨x,seen⟩ listed
      ⟨found,listed.foldl (fun seen entry => noted fields seen entry.1) seen⟩ := by
  -- No name still to come was seen, so none is refused and the seen ones only pile up.
  induction gathers generalizing seen with
  | nil => exact .nil
  | cons step _ ih =>
    obtain ⟨apart,distinct⟩ := List.pairwise_cons.mp distinct
    obtain ⟨new,later⟩ := List.forall_mem_cons.mp fresh
    refine .cons (fun middle gap v rest middles gaps spelled delimited => ?_)
      (ih distinct fun other member already => ?_)
    · rw [readStrict_eq new,step middle gap v rest middles gaps spelled delimited]
      rfl
    · rcases mem_noted_iff.mp already with earlier | ⟨same,-⟩
      · exact later other member earlier
      · exact apart other member same.symm

theorem required_told (layout : Layout fields) (tells : Tells fields r listed) {field : Field ρ}
    (member : field ∈ fields) (required : field.required = true) :
    field.name ∈ listed.map (·.1) := by
  obtain ⟨slot,-,rfl⟩ := List.mem_map.mp (layout.same ▸ member)
  obtain ⟨v,written⟩ := Option.ne_none_iff_exists'.mp (slot.shown required r)
  exact List.mem_map_of_mem (tells.all slot.field member v written)

section
variable (layout : Layout fields) (restores : ∀ slot ∈ layout.slots, slot.Restores depth blank r)
include restores

/-- A strict record is given back from all members that tell it. -/
theorem strict_tells (tells : Tells fields r listed) (name : String) :
    (strict name blank fields).ofJson (.object listed) = .ok r := by
  have told := fromMembers_put layout restores tells.known blank
  rw [foldl_put_tells layout restores tells] at told
  have complete : missing? fields (listed.map (·.1)) = none :=
    missing?_eq_none_iff.mpr fun field => required_told layout tells
  simp only [strict,told,complete,bind,Except.bind]
  rfl

theorem strict_read_tells (tells : Tells fields r listed) (name : String)
    {before text rest : Bytes} (blanks : Blanks before) (spelled : Spelled text (.object listed)) :
    (strict name blank fields).read (depth + 1) (before ++ (text ++ rest)) = .ok (r,rest) := by
  obtain ⟨members,entries,order,written,rfl⟩ := spelled.of_object
  have tells := tells.perm order
  have gathers := gathers_lenient layout restores tells.known blank
  rw [foldl_put_tells layout restores tells] at gathers
  have strictly := gathers_strict gathers tells.distinct (fun _ _ => List.not_mem_nil)
  have complete :
      missing? fields (members.foldl (fun seen entry => noted fields seen entry.1) []) = none := by
    refine missing?_eq_none_iff.mpr fun field member required => mem_foldl_noted.mpr (.inr ⟨?_,?_⟩)
    · exact required_told layout tells member required
    · exact List.find?_isSome.mpr ⟨field,member,by simp⟩
  refine (atByte_append blanks (by decide) _).trans ?_
  refine bind_eq_ok.mpr
    ⟨(_,ascii '}' :: rest),object_gathers strictly (object_compact written) rfl,?_⟩
  simp only [complete]
  exact bind_eq_ok.mpr ⟨rest,closeObject_brace rest,rfl⟩

theorem lenient_tells (tells : Tells fields r listed) (name : String) :
    (lenient name blank fields).ofJson (.object listed) = .ok r := by
  have told := fromMembers_put layout restores tells.known blank
  rwa [foldl_put_tells layout restores tells] at told

theorem lenient_read_tells (tells : Tells fields r listed) (name : String)
    {before text rest : Bytes} (blanks : Blanks before) (spelled : Spelled text (.object listed)) :
    (lenient name blank fields).read (depth + 1) (before ++ (text ++ rest)) = .ok (r,rest) := by
  obtain ⟨members,entries,order,written,rfl⟩ := spelled.of_object
  have tells := tells.perm order
  have gathers := gathers_lenient layout restores tells.known blank
  rw [foldl_put_tells layout restores tells] at gathers
  refine (atByte_append blanks (by decide) _).trans ?_
  refine bind_eq_ok.mpr
    ⟨(r,ascii '}' :: rest),object_gathers gathers (object_compact written) rfl,?_⟩
  exact bind_eq_ok.mpr ⟨rest,closeObject_brace rest,rfl⟩

theorem steady_entry {entry : String × Json} (member : entry ∈ members fields r) :
    Steady depth entry.2 := by
  obtain ⟨field,inside,written,-⟩ := (mem_members_iff layout.names r entry).mp member
  obtain ⟨slot,known,rfl⟩ := List.mem_map.mp (layout.same ▸ inside)
  exact (restores slot known).steady _ written

theorem steady_members : Steady (depth + 1) (.object (members fields r)) :=
  steady_object fun _ => steady_entry layout restores

theorem strict_restores (name : String) : (strict name blank fields).Restores (depth + 1) r where
  value := strict_tells layout restores (tells_members layout.names r) name
  steady := steady_members layout restores
  text _ _ _ blanks spelled _ :=
    strict_read_tells layout restores (tells_members layout.names r) name blanks spelled

theorem lenient_restores (name : String) : (lenient name blank fields).Restores (depth + 1) r where
  value := lenient_tells layout restores (tells_members layout.names r) name
  steady := steady_members layout restores
  text _ _ _ blanks spelled _ :=
    lenient_read_tells layout restores (tells_members layout.names r) name blanks spelled

end

/-- Names that do not come after the kind are not those of fields. -/
theorem field?_early (above : ∀ field ∈ fields, "kind" < field.name) {name : String}
    (early : ¬"kind" < name) : field? fields name = none := by
  rw [field?,List.find?_eq_none]
  intro field member same
  exact early (of_decide_eq_true same ▸ above field member)

section
variable (layout : Layout fields) (above : ∀ field ∈ fields, "kind" < field.name)
  (first second : Json)
include layout above

/-- What a resource is written with before its own fields stands before them in the order, too. -/
theorem headed_ascending (r : ρ) : Entries.Ascending
    (("apiVersion",first) :: ("kind",second) :: members fields r) := by
  have order : "apiVersion" < "kind" := by decide
  have after : ∀ entry ∈ members fields r, "kind" < entry.1 := by
    intro entry member
    obtain ⟨field,inside,-,named⟩ := (mem_members_iff layout.names r entry).mp member
    exact named ▸ above field inside
  refine List.pairwise_cons.mpr ⟨List.forall_mem_cons.mpr ⟨order,fun entry member => ?_⟩,
    List.pairwise_cons.mpr ⟨after,SortedMap.ascending _⟩⟩
  exact String.lt_trans order (after entry member)

theorem tells_headed (r : ρ) :
    Tells fields r (("apiVersion",first) :: ("kind",second) :: members fields r) where
  known := by
    have tells := tells_members layout.names r
    refine List.forall_mem_cons.mpr ⟨?_,List.forall_mem_cons.mpr ⟨?_,tells.known⟩⟩
    · intro field found
      rw [field?_early above (show ¬"kind" < "apiVersion" by decide)] at found
      contradiction
    · intro field found
      rw [field?_early above (String.lt_irrefl _)] at found
      contradiction
  all field member v written := List.mem_cons_of_mem _ (List.mem_cons_of_mem _
    ((tells_members layout.names r).all field member v written))
  distinct := SortedMap.distinct_entries ⟨_,headed_ascending layout above first second r⟩

/-- A resource is read back as its record is, whatever kind and version are written with it. -/
theorem resource_restores (restores : ∀ slot ∈ layout.slots, slot.Restores depth blank r)
    (kind : Kind) : (Codec.resource kind blank fields).Restores (depth + 1) r := by
  have tells := tells_headed layout above (.text apiVersion) (.text kind.name) r
  refine ⟨strict_tells layout restores tells kind.name,?_,fun before text rest blanks spelled _ =>
    strict_read_tells layout restores tells kind.name blanks spelled⟩
  refine @steady_object depth ⟨_,headed_ascending layout above _ _ r⟩ ?_
  refine List.forall_mem_cons.mpr ⟨steady_text _ _,List.forall_mem_cons.mpr ⟨steady_text _ _,?_⟩⟩
  exact fun entry => steady_entry layout restores

end

end Codec

/-- The two forms of a record. -/
inductive Form where
  | strict
  | lenient

namespace Form

def codec {ρ : Type} : Form → String → ρ → List (Field ρ) → Codec ρ
  | .strict => .strict
  | .lenient => .lenient

end Form

/-- A record of one of the forms, with the parts of it that its fields are about. -/
structure Laid {ρ : Type} (form : Form) (codec : Codec ρ) where
  {name : String}
  {blank : ρ}
  {fields : List (Field ρ)}
  shape : codec = form.codec name blank fields
  layout : Layout fields

namespace Laid
variable {ρ : Type} {form : Form} {codec : Codec ρ} (laid : Laid form codec) {depth : Nat} {r : ρ}

theorem restores (each : ∀ slot ∈ laid.layout.slots, slot.Restores depth laid.blank r) :
    codec.Restores (depth + 1) r := by
  obtain ⟨rfl,layout⟩ := laid
  cases form with
  | strict => exact Codec.strict_restores layout each _
  | lenient => exact Codec.lenient_restores layout each _

/-- Each part of a record that was read is as it was at first, or was read. -/
theorem got (made : codec.Made (depth + 1) r) :
    ∀ slot ∈ laid.layout.slots, slot.Got depth laid.blank r := by
  obtain ⟨rfl,layout⟩ := laid
  cases form with
  | strict => exact Codec.strict_got layout made
  | lenient => exact Codec.lenient_got layout made

end Laid
end NodeAudit
