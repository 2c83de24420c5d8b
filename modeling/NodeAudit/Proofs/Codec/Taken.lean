import NodeAudit.Proofs.Codec.Listed
import NodeAudit.Proofs.Codec.Placed
import NodeAudit.Proofs.Json.Under

/-! What a codec makes of the text of a value, directly or by way of the value. The parts of a record
are made of the texts under the names of its fields, and of nothing else. -/
namespace NodeAudit
open Json Json.Read

/-- A codec makes this of the text of a value. -/
structure Codec.Takes {α : Type} (codec : Codec α) (depth : Nat) (t : Bytes) (a : α) : Prop where
  written : Written .value t
  made : (∃ gap rest, Blanks gap ∧ codec.read depth (gap ++ (t ++ rest)) = .ok (a,rest)) ∨
    ∃ v, Means depth t v ∧ codec.ofJson v = .ok a

/-- A field makes this of a record and the text of a value. -/
def Field.Takes {ρ : Type} (field : Field ρ) (depth : Nat) (t : Bytes) (x y : ρ) : Prop :=
  Written .value t ∧
    ((∃ gap rest, Blanks gap ∧ field.read x depth (gap ++ (t ++ rest)) = .ok (y,rest)) ∨
      ∃ v, Means depth t v ∧ field.ofJson x v = .ok y)

namespace Field
variable {ρ : Type} {depth : Nat} {t : Bytes} {x y : ρ}

theorem Takes.makes {field : Field ρ} (takes : field.Takes depth t x y) : field.Makes depth x y := by
  obtain ⟨-,⟨gap,rest,-,read⟩ | ⟨v,means,given⟩⟩ := takes
  · exact .inl ⟨_,rest,read⟩
  · exact .inr ⟨v,means_readable means,given⟩

theorem of_takes {α : Type} {name : String} {codec : Codec α} {get : ρ → α} {set : ρ → α → ρ}
    (takes : (Field.of name codec get set).Takes depth t x y) :
    ∃ a, codec.Takes depth t a ∧ y = set x a := by
  obtain ⟨written,⟨gap,rest,blanks,read⟩ | ⟨v,means,given⟩⟩ := takes
  · obtain ⟨⟨a,_⟩,found,passed⟩ := bind_eq_ok.mp read
    obtain ⟨rfl,rfl⟩ := Prod.mk.inj (Except.ok.inj passed)
    exact ⟨a,⟨written,.inl ⟨gap,_,blanks,found⟩⟩,rfl⟩
  · change set x <$> codec.ofJson v = _ at given
    obtain ⟨a,found,rfl⟩ := map_eq_ok.mp given
    exact ⟨a,⟨written,.inr ⟨v,means,found⟩⟩,rfl⟩

end Field

namespace Codec
variable {ρ : Type} {fields : List (Field ρ)} {depth : Nat} {x r blank : ρ}
  {list : List (String × Bytes)}

/-- What fields make of a record and texts under their names, one after another. -/
inductive Took (fields : List (Field ρ)) (depth : Nat) : ρ → List (String × Bytes) → ρ → Prop where
  | nil {x : ρ} : Took fields depth x [] x
  | known {x y r : ρ} {key : String} {t : Bytes} {field : Field ρ} {list : List (String × Bytes)}
      (found : field? fields key = some field) (takes : field.Takes depth t x y)
      (others : Took fields depth y list r) : Took fields depth x ((key,t) :: list) r
  | unknown {x r : ρ} {key : String} {t : Bytes} {list : List (String × Bytes)}
      (found : field? fields key = none) (others : Took fields depth x list r) :
      Took fields depth x ((key,t) :: list) r

theorem took_lenient (written : ∀ entry ∈ list, Written .value entry.2)
    (folds : Folds (readLenient fields depth) x list r) : Took fields depth x list r := by
  induction folds with
  | nil => exact .nil
  | @cons x y r key middle gap v rest list first second delimited step _ ih =>
    obtain ⟨here,later⟩ := List.forall_mem_cons.mp written
    have separated := (colon_iff _ (gap ++ (v ++ rest))).mpr ⟨middle,first,rfl⟩
    rw [readLenient] at step
    split at step
    next unknown =>
      obtain ⟨_,-,passed⟩ := bind_eq_ok.mp step
      obtain ⟨_,-,passed⟩ := bind_eq_ok.mp passed
      obtain ⟨rfl,-⟩ := Prod.mk.inj (Except.ok.inj passed)
      exact .unknown unknown (ih later)
    next field known =>
      rw [separated] at step
      exact .known known ⟨here,.inl ⟨gap,rest,second,step⟩⟩ (ih later)

theorem took_strict {draft found : Draft ρ} (written : ∀ entry ∈ list, Written .value entry.2)
    (folds : Folds (readStrict fields depth) draft list found) :
    Took fields depth draft.record list found.record := by
  induction folds with
  | nil => exact .nil
  | @cons _ _ _ key middle gap v rest list first second delimited step _ ih =>
    obtain ⟨here,later⟩ := List.forall_mem_cons.mp written
    obtain ⟨after,separated,⟨unknown,rfl,-⟩ | ⟨field,record,known,-,read,rfl⟩⟩ := readStrict_ok step
    · exact .unknown unknown (ih later)
    · rw [(colon_iff _ (gap ++ (v ++ rest))).mpr ⟨middle,first,rfl⟩] at separated
      obtain rfl := Except.ok.inj separated
      exact .known known ⟨here,.inl ⟨gap,rest,second,read⟩⟩ (ih later)

theorem took_places {part : List (Field ρ)} {items : List Bytes}
    (known : ∀ field ∈ part, field? fields field.name = some field)
    (written : ∀ item ∈ items, Written .value item) (places : Places depth x part items r) :
    Took fields depth x ((part.map Field.name).zip items) r := by
  induction places with
  | ended =>
    rw [List.zip_nil_right]
    exact .nil
  | @next _ _ _ field _ v rest _ delimited read _ ih =>
    obtain ⟨first,others⟩ := List.forall_mem_cons.mp known
    obtain ⟨here,later⟩ := List.forall_mem_cons.mp written
    exact .known first ⟨here,.inl ⟨[],rest,blanks_nil,read⟩⟩ (ih others later)

theorem took_members {members : List (String × Json)}
    (pairs : List.Forall₂ (Pair (Means depth)) list members)
    (given : fromMembers fields members x = .ok r) : Took fields depth x list r := by
  induction pairs generalizing x with
  | nil =>
    obtain rfl := Except.ok.inj given
    exact .nil
  | @cons entry member _ _ pair _ ih =>
    obtain ⟨key,t⟩ := entry
    obtain ⟨_,v⟩ := member
    obtain ⟨rfl,means⟩ := pair
    cases found : field? fields key with
    | none =>
      rw [fromMembers_unknown found] at given
      exact .unknown found (ih given)
    | some field =>
      obtain ⟨y,read,later⟩ := (fromMembers_known found _).mp given
      exact .known found ⟨means_written means,.inr ⟨v,means,read⟩⟩ (ih later)

/-- Of the texts under one name only the last is left in a part of a record. -/
theorem took_slot (layout : Layout fields) (took : Took fields depth x list r) {slot : Slot ρ}
    (member : slot ∈ layout.slots) :
    (slot.get r = slot.get x ∧ ∀ entry ∈ list, entry.1 ≠ slot.field.name) ∨
      ∃ t, SortedMap.Final list slot.field.name t ∧
        ∃ y z, slot.field.Takes depth t y z ∧ slot.get r = slot.get z := by
  -- From the front on, so that a later text of the name is already known to count, if there is one.
  induction took with
  | nil => exact .inl ⟨rfl,List.forall_mem_nil _⟩
  | @known x y r key t field list found takes _ ih =>
    rcases ih with ⟨same,others⟩ | ⟨u,⟨before,after,rfl,last⟩,later⟩
    · by_cases own : key = slot.field.name
      · subst own
        rw [field?_of_mem layout.names (layout.same ▸ List.mem_map_of_mem member)] at found
        obtain rfl := Option.some.inj found
        exact .inr ⟨t,⟨[],list,rfl,others⟩,x,y,takes,same⟩
      · refine .inl ⟨same.trans ?_,List.forall_mem_cons.mpr ⟨own,others⟩⟩
        obtain ⟨other,known,rfl⟩ := List.mem_map.mp (layout.same ▸ (field?_mem found).1)
        obtain ⟨part,rfl⟩ := other.makes depth x y takes.makes
        refine (layout.apart_of_ne member known ?_).first x part
        rintro rfl
        exact own (field?_mem found).2.symm
    · exact .inr ⟨u,⟨(key,t) :: before,after,rfl,last⟩,later⟩
  | @unknown x r key t list found _ ih =>
    rcases ih with ⟨same,others⟩ | ⟨u,⟨before,after,rfl,last⟩,later⟩
    · refine .inl ⟨same,List.forall_mem_cons.mpr ⟨?_,others⟩⟩
      rintro rfl
      rw [field?_of_mem layout.names (layout.same ▸ List.mem_map_of_mem member)] at found
      contradiction
    · exact .inr ⟨u,⟨(key,t) :: before,after,rfl,last⟩,later⟩

theorem items_verbatim {category : Category} {s : Bytes} (written : Written category s)
    (inside : category = .items) : ∃ items, Items Verbatim s items := by
  induction written with
  | lastItem first value second => exact ⟨[_],.last first ⟨value,rfl⟩ second⟩
  | nextItem first value second _ _ ih =>
    obtain ⟨items,rest⟩ := ih rfl
    exact ⟨_ :: items,.next first ⟨value,rfl⟩ second rest⟩
  | _ => contradiction

/-- The text of an array was read from its opening bracket on. -/
theorem array_places (each : ∀ field ∈ fields, field.Consumes) {short : Nat → Misfit}
    {t left rest : Bytes} (passed : readItems short depth 0 fields blank t = .ok (r,left))
    (closed : closeArray left = .ok rest) : ∃ text items, Sequence Verbatim text items ∧
      ascii '[' :: t = text ++ rest ∧ Places depth blank fields items r := by
  cases readItems_closes each passed closed with
  | here blanks =>
    obtain ⟨rfl,-⟩ := readItems_ended blanks passed
    exact ⟨_,[],.empty blanks,by simp,.ended⟩
  | after leads written =>
    obtain ⟨items,inside⟩ := items_verbatim written rfl
    cases leads with
    | start =>
      exact ⟨_,items,.items inside,by simp,places_items each inside (by rfl) .start passed closed⟩

theorem verbatim_of_means (t : Bytes) (v : Json) (means : Means depth t v) : Verbatim t t :=
  ⟨means_written means,rfl⟩

section
variable {name : String} {t : Bytes}

theorem verbatim_values {t : Bytes} {list : List (String × Bytes)} (object : Object Verbatim t list) :
    ∀ entry ∈ list, Written .value entry.2 := by
  intro entry inside
  obtain ⟨v,value,same⟩ := object.values entry inside
  exact same ▸ value

theorem lenient_took (each : ∀ field ∈ fields, field.Consumes)
    (takes : (lenient name blank fields).Takes (depth + 1) t r) : ∃ list kept,
      Object Verbatim t list ∧ SortedMap.ofList kept = SortedMap.ofList list ∧
      Took fields depth blank kept r := by
  obtain ⟨written,⟨gap,rest,blanks,read⟩ | ⟨v,means,given⟩⟩ := takes
  · obtain ⟨u,left,brace,inside,closed⟩ := lenient_ok read
    rw [skipBlanks_value blanks written] at brace
    obtain ⟨text,list,object,whole,folds⟩ :=
      object_folds (readLenient_consumes each depth) inside closed
    obtain rfl := List.append_cancel_right (brace.trans whole)
    exact ⟨list,list,object,rfl,took_lenient (verbatim_values object) folds⟩
  -- A value has lost the members that others override, so its fields saw fewer texts.
  · cases means with
    | object nested object =>
      obtain rfl := Option.some.inj nested
      obtain ⟨list,texts,pairs⟩ := object.paired verbatim_of_means
      exact ⟨list,_,texts,SortedMap.ofList_entries _,took_members (pairs_ofList pairs) given⟩
    | _ => contradiction

theorem strict_took (layout : Layout fields) (each : ∀ field ∈ fields, field.Consumes)
    (takes : (strict name blank fields).Takes (depth + 1) t r) : ∃ list kept,
      Lays (fields.map Field.name) t list ∧ SortedMap.ofList kept = SortedMap.ofList list ∧
      Took fields depth blank kept r := by
  have known : ∀ field ∈ fields, field? fields field.name = some field :=
    fun _ => field?_of_mem layout.names
  obtain ⟨written,⟨gap,rest,blanks,read⟩ | ⟨v,means,given⟩⟩ := takes
  · obtain ⟨inner,level,⟨u,left,bracket,items,closed⟩ | ⟨u,draft,left,brace,inside,-,rfl,closed⟩⟩ :=
      strict_ok read
    · obtain rfl := Nat.succ.inj level
      rw [skipBlanks_value blanks written] at bracket
      obtain ⟨text,items,sequence,whole,places⟩ := array_places each items closed
      obtain rfl := List.append_cancel_right (bracket.trans whole)
      refine ⟨_,_,.array sequence,rfl,took_places known (fun item inside => ?_) places⟩
      obtain ⟨v,value,same⟩ := sequence.values item inside
      exact same ▸ value
    · obtain rfl := Nat.succ.inj level
      rw [skipBlanks_value blanks written] at brace
      obtain ⟨text,list,object,whole,folds⟩ :=
        object_folds (readStrict_consumes each depth) inside closed
      obtain rfl := List.append_cancel_right (brace.trans whole)
      exact ⟨list,list,.object object,rfl,took_strict (verbatim_values object) folds⟩
  · cases means with
    | object nested object =>
      obtain rfl := Option.some.inj nested
      obtain ⟨list,texts,pairs⟩ := object.paired verbatim_of_means
      exact ⟨list,_,.object texts,SortedMap.ofList_entries _,
        took_members (pairs_ofList pairs) (strict_object_iff.mp given).1⟩
    | array nested sequence =>
      obtain rfl := Option.some.inj nested
      obtain ⟨items,texts,pairs⟩ := sequence.paired verbatim_of_means
      have listed := (fromItems_iff known).mp (strict_array_iff.mp given)
      exact ⟨_,_,.array texts,rfl,took_members (pairs_zip pairs _) listed.2.1⟩
    | _ => contradiction

end

end Codec

/-- Something is made of the text that is there, and is as it was at first where there is none. -/
structure Codec.Draws {α : Type} (codec : Codec α) (depth : Nat) (there : Bytes → Prop)
    (start a : α) : Prop where
  given : ∀ t, there t → codec.Takes depth t a
  absent : (∀ t, ¬there t) → a = start

theorem Codec.Draws.exists {α : Type} {codec : Codec α} {depth : Nat} {there : Bytes → Prop}
    {start a : α} (draws : codec.Draws depth there start a) (other : a ≠ start) :
    ∃ t, there t ∧ codec.Takes depth t a := by
  by_contra none
  refine other (draws.absent fun t inside => none ⟨t,inside,draws.given t inside⟩)

namespace Slot
variable {ρ α : Type} {name : String} {codec : Codec α} {depth : Nat} {blank r : ρ}
  {there : Bytes → Prop}

/-- A part of a record is made of the text that is there for it, or is as it was at first. -/
def Draws (slot : Slot ρ) (depth : Nat) (blank r : ρ) (there : Bytes → Prop) : Prop :=
  (∀ t, there t → ∃ y z, slot.field.Takes depth t y z ∧ slot.get r = slot.get z) ∧
    ((∀ t, ¬there t) → slot.get r = slot.get blank)

theorem of_draws {get : ρ → α} {set : ρ → α → ρ} {get_set : ∀ x a, get (set x a) = a}
    (draws : (of name codec get set get_set).Draws depth blank r there) :
    codec.Draws depth there (get blank) (get r) := by
  refine ⟨fun t inside => ?_,draws.2⟩
  obtain ⟨y,z,takes,same⟩ := draws.1 t inside
  obtain ⟨a,made,rfl⟩ := Field.of_takes takes
  rwa [show get r = a from same.trans (get_set y a)]

theorem need_draws {get : ρ → α} {set : ρ → α → ρ} {get_set : ∀ x a, get (set x a) = a}
    (draws : (need name codec get set get_set).Draws depth blank r there) :
    codec.Draws depth there (get blank) (get r) :=
  @of_draws ρ α name codec depth blank r there get set get_set draws

theorem maybe_draws {get : ρ → Option α} {set : ρ → Option α → ρ}
    {get_set : ∀ x a, get (set x a) = a}
    (draws : (maybe name codec get set get_set).Draws depth blank r there) :
    codec.optional.Draws depth there (get blank) (get r) :=
  @of_draws ρ _ name codec.optional depth blank r there get set get_set draws

end Slot

namespace Codec
variable {ρ : Type} {fields : List (Field ρ)} {depth : Nat} {r blank : ρ} {name : String} {t : Bytes}

theorem draws_of_took (layout : Layout fields) {kept : List (String × Bytes)}
    (took : Took fields depth blank kept r) {slot : Slot ρ} (member : slot ∈ layout.slots) :
    slot.Draws depth blank r (SortedMap.Final kept slot.field.name) := by
  rcases took_slot layout took member with ⟨same,others⟩ | ⟨t,last,made⟩
  · refine ⟨?_,fun _ => same⟩
    rintro t ⟨before,after,rfl,-⟩
    exact absurd rfl (others _ (List.mem_append_right _ List.mem_cons_self))
  · constructor
    · intro u other
      rw [← SortedMap.get?_ofList] at last other
      obtain rfl := Option.some.inj (last.symm.trans other)
      exact made
    · intro none
      exact absurd last (none t)

/-- Each part of a strict record is made of the text under its name or at its place. -/
theorem strict_draws (layout : Layout fields) (each : ∀ field ∈ fields, field.Consumes)
    (takes : (strict name blank fields).Takes (depth + 1) t r) : ∀ slot ∈ layout.slots,
      slot.Draws depth blank r (Under (fields.map Field.name) t slot.field.name) := by
  intro slot member
  obtain ⟨list,kept,lays,same,took⟩ := strict_took layout each takes
  have draws := draws_of_took layout took member
  have texts : Under (fields.map Field.name) t slot.field.name =
      SortedMap.Final kept slot.field.name :=
    funext fun raw => propext ((under_iff lays _ raw).trans (final_congr same _ raw).symm)
  rwa [texts]

theorem lenient_draws (layout : Layout fields) (each : ∀ field ∈ fields, field.Consumes)
    (takes : (lenient name blank fields).Takes (depth + 1) t r) : ∀ slot ∈ layout.slots,
      slot.Draws depth blank r (Last t slot.field.name) := by
  intro slot member
  obtain ⟨list,kept,object,same,took⟩ := lenient_took each takes
  have draws := draws_of_took layout took member
  have texts : Last t slot.field.name = SortedMap.Final kept slot.field.name :=
    funext fun raw => propext ((last_iff object _ raw).trans (final_congr same _ raw).symm)
  rwa [texts]

section
variable {α : Type} {codec : Codec α}

theorem optional_takes {o : Option α} (takes : codec.optional.Takes depth t o) :
    (t = word "null" ∧ o = none) ∨ ∃ a, o = some a ∧ codec.Takes depth t a := by
  obtain ⟨written,⟨gap,rest,blanks,read⟩ | ⟨v,means,given⟩⟩ := takes
  · rcases optional_ok read with ⟨rfl,null⟩ | ⟨a,rfl,own⟩
    · rw [skipBlanks_value blanks written] at null
      exact .inl ⟨List.append_cancel_right null,rfl⟩
    · rw [skipBlanks_value blanks written] at own
      exact .inr ⟨a,rfl,written,.inl ⟨[],rest,blanks_nil,own⟩⟩
  · rcases (optional_ofJson_iff v o).mp given with _ | ⟨there,value⟩
    · have null : t = word "null" := by cases depth <;> cases means <;> rfl
      exact .inl ⟨null,rfl⟩
    · exact .inr ⟨_,rfl,written,.inr ⟨v,means,value⟩⟩

theorem string_takes {value : String} (takes : string.Takes depth t value) : Quotes t value := by
  obtain ⟨written,⟨gap,rest,blanks,read⟩ | ⟨v,means,given⟩⟩ := takes
  · obtain ⟨b,u,start,read⟩ := atByte_ok read
    rw [skipBlanks_value blanks written] at start
    split at read
    next quote =>
      obtain ⟨body,rfl,spelled⟩ := (string_iff _ _ _).mp read
      refine ⟨body,List.append_cancel_right (start.trans ?_),spelled⟩
      rw [quote,List.cons_append,List.append_assoc]
      rfl
    next => exact absurd read (mismatch_error _ _ _)
  · obtain rfl := (string_ofJson_iff v value).mp given
    cases depth <;> cases means <;> exact ⟨_,rfl,‹_›⟩

theorem takes_sound (consumes : codec.Consumes) (depth : Nat) :
    Sound (codec.read depth) (codec.Takes depth) := by
  intro s a rest read
  obtain ⟨before,v,blanks,written,rfl⟩ := consumes depth _ _ _ read
  exact ⟨before,v,blanks,⟨written,.inl ⟨before,rest,blanks,read⟩⟩,rfl⟩

theorem verbatim_of_takes (t : Bytes) (a : α) (takes : codec.Takes depth t a) : Verbatim t t :=
  ⟨takes.written,rfl⟩

theorem foldlM_takes {list : List (String × Bytes)} {members : List (String × Json)}
    (pairs : List.Forall₂ (Pair (Means depth)) list members) {start found : SortedMap α}
    (given : members.foldlM (fun map member => return map.insert member.1 (← codec.ofJson member.2))
      start = .ok found) :
    ∃ others, List.Forall₂ (Pair (codec.Takes depth)) list others ∧ found = fill start others := by
  induction pairs generalizing start with
  | nil => exact ⟨[],.nil,(Except.ok.inj given).symm⟩
  | @cons entry member _ _ pair _ ih =>
    obtain ⟨next,step,later⟩ := bind_eq_ok.mp given
    obtain ⟨a,read,inserted⟩ := bind_eq_ok.mp step
    obtain rfl := Except.ok.inj inserted
    obtain ⟨others,made,rfl⟩ := ih later
    have takes : codec.Takes depth entry.2 a := ⟨means_written pair.2,.inr ⟨member.2,pair.2,read⟩⟩
    exact ⟨(member.1,a) :: others,.cons ⟨pair.1,takes⟩ made,rfl⟩

/-- A map holds what is made of the last text under each name, and nothing else. -/
theorem map_takes (consumes : codec.Consumes) {found : SortedMap α}
    (takes : codec.map.Takes (depth + 1) t found) : ∃ texts : SortedMap Bytes,
      (∀ key raw, Last t key raw ↔ texts.get? key = some raw) ∧
      ∀ key, Option.Rel (codec.Takes depth) (texts.get? key) (found.get? key) := by
  have paired {list : List (String × Bytes)} (object : Object Verbatim t list) (key : String)
      (raw : Bytes) : Last t key raw ↔ (SortedMap.ofList list).get? key = some raw :=
    (last_iff object key raw).trans (SortedMap.get?_ofList list key raw).symm
  obtain ⟨written,⟨gap,rest,blanks,read⟩ | ⟨v,means,given⟩⟩ := takes
  · obtain ⟨b,u,start,read⟩ := atByte_ok read
    rw [skipBlanks_value blanks written] at start
    split at read
    next brace =>
      obtain ⟨inner,level,read⟩ := within_ok read
      obtain rfl := Nat.succ.inj level
      obtain ⟨text,members,object,whole,rfl⟩ := object_sound (takes_sound consumes depth) read
      rw [brace] at start
      obtain rfl := List.append_cancel_right (start.trans whole)
      obtain ⟨list,texts,pairs⟩ := object.paired verbatim_of_takes
      exact ⟨_,paired texts,pairs_find? (pairs_ofList pairs)⟩
    next => exact absurd read (mismatch_error _ _ _)
  · cases means with
    | object nested object =>
      obtain rfl := Option.some.inj nested
      obtain ⟨list,texts,pairs⟩ := object.paired verbatim_of_means
      obtain ⟨others,made,rfl⟩ := foldlM_takes (pairs_ofList pairs) given
      have again := pairs_ofList made
      rw [SortedMap.ofList_entries] at again
      exact ⟨_,paired texts,pairs_find? again⟩
    | _ => contradiction

theorem Draws.exists_some {there : Bytes → Prop} {a : α}
    (draws : codec.optional.Draws depth there none (some a)) :
    ∃ t, there t ∧ codec.Takes depth t a := by
  obtain ⟨t,inside,takes⟩ := draws.exists (Option.some_ne_none a)
  obtain ⟨-,impossible⟩ | ⟨_,same,takes⟩ := optional_takes takes
  · contradiction
  · obtain rfl := Option.some.inj same
    exact ⟨t,inside,takes⟩

theorem Draws.given_some {there : Bytes → Prop} {o : Option α}
    (draws : codec.optional.Draws depth there none o) (inside : there t) (solid : t ≠ word "null") :
    ∃ a, o = some a ∧ codec.Takes depth t a :=
  (optional_takes (draws.given t inside)).resolve_left fun null => solid null.1

end

/-- Texts by name hold what the last string under each name denotes. -/
theorem texts_get?_iff {texts : SortedMap String} (takes : (Codec.map .string).Takes (depth + 1) t texts)
    (key value : String) :
    texts.get? key = some value ↔ ∃ raw, Last t key raw ∧ Quotes raw value := by
  obtain ⟨raws,last,related⟩ := map_takes string_consumes takes
  have own := related key
  simp only [last]
  generalize texts.get? key = found,raws.get? key = given at own
  cases own with
  | none => simp
  | @some raw content made =>
    have quoted := string_takes made
    simp only [Option.some.injEq,exists_eq_left']
    exact ⟨fun same => same ▸ quoted,quoted.unique⟩

end Codec
end NodeAudit
