import NodeAudit.Proofs.Codec.Consumed

/-! Each field of a strict record is read from the text that stands under its name, or at its place
where the record is an array, and no other text is read into it. -/
namespace NodeAudit
open Json

namespace Json

/-- A text stands in a record under a name, or at a place where the record is an array. -/
inductive Gives (name : String) (place : Nat) (t : Bytes) : Bytes → Prop where
  | member {s : Bytes} {list : List (String × Bytes)} (object : Object Verbatim s list)
      (inside : (name,t) ∈ list) : Gives name place t s
  | item {s : Bytes} {list : List Bytes} (sequence : Sequence Verbatim s list)
      (placed : list[place]? = some t) : Gives name place t s

theorem Gives.written {name : String} {place : Nat} {t s : Bytes} (gives : Gives name place t s) :
    Written .value s := by
  cases gives with
  | member object _ => exact object_written (fun _ _ verbatim => verbatim.1) object
  | item sequence _ => exact sequence_written (fun _ _ verbatim => verbatim.1) sequence

end Json

namespace Json.Read
variable {σ : Type} {member : σ → String → Bytes → Except Stop (σ × Bytes)}

theorem colon_unique {before s gap t : Bytes} (first : Blanks before) (second : Blanks gap)
    (same : before ++ ascii ':' :: s = gap ++ ascii ':' :: t) : s = t := by
  have one := (colon_iff (before ++ ascii ':' :: s) s).mpr ⟨before,first,rfl⟩
  rw [(colon_iff _ t).mpr ⟨gap,second,same⟩] at one
  exact (Except.ok.inj one).symm

theorem delimited_of_more {s rest : Bytes} {found : Bool}
    (read : more false s = .ok (found,rest)) : Delimited s := by
  cases found with
  | false =>
    obtain ⟨before,tail,blanks,rfl,rfl⟩ := more_false read
    exact delimited_append blanks (.inr (.inl rfl)) tail
  | true =>
    obtain ⟨lead,before,leads,-,rfl⟩ := more_true read
    cases leads with
    | comma blanks =>
      rw [List.append_assoc]
      exact delimited_append blanks (.inl rfl) _

/-- A member is read from its own text, and what follows is read behind that. -/
theorem members_member (consumes : ConsumesMember member) {s lead : Bytes}
    {entry : String × Bytes} (written : Member Verbatim s entry) {first : Bool}
    (leads : Lead first lead) {fuel : Nat} {state found : σ} {b : UInt8}
    (closing : b = ascii ',' ∨ b = ascii ']' ∨ b = ascii '}') {rest left : Bytes}
    (passed : members member (fuel + 1) first state (lead ++ (s ++ b :: rest)) = .ok (found,left)) :
    ∃ middle gap after next, Blanks middle ∧ Blanks gap ∧ Blanks after ∧
      member state entry.1 (middle ++ ascii ':' :: (gap ++ (entry.2 ++ (after ++ b :: rest)))) =
        .ok (next,after ++ b :: rest) ∧
      members member fuel false next (after ++ b :: rest) = .ok (found,left) := by
  obtain @⟨before,body,middle,gap,v,after,key,raw,blanks,spelled,middles,gaps,value,white⟩ := written
  obtain ⟨value,rfl⟩ := value
  have delimited := delimited_append white closing rest
  simp only [List.append_assoc,List.cons_append] at passed
  rw [members,name_complete leads blanks spelled] at passed
  change (member state key _ >>= fun read => members member fuel false read.1 read.2) = _ at passed
  obtain ⟨⟨next,behind⟩,step,others⟩ := bind_eq_ok.mp passed
  have same : behind = after ++ b :: rest := by
    obtain ⟨between,before,w,blanks,space,other,split⟩ := consumes _ _ _ _ _ step
    exact consumed_unique space other (delimited_of_members others) gaps value delimited
      (colon_unique blanks middles split.symm)
  subst same
  exact ⟨middle,gap,after,next,middles,gaps,white,step,others⟩

theorem folds_members (consumes : ConsumesMember member) {inside : Bytes}
    {list : List (String × Bytes)} (written : Members Verbatim inside list) {fuel : Nat}
    {first : Bool} {lead : Bytes} (leads : Lead first lead) {state found : σ} {rest left : Bytes}
    (passed : members member fuel first state (lead ++ (inside ++ ascii '}' :: rest)) =
      .ok (found,left)) : Folds member state list found := by
  induction written generalizing fuel first lead state with
  | last only =>
    cases fuel with
    | zero => contradiction
    | succ fuel =>
      obtain ⟨middle,gap,after,next,middles,gaps,white,step,others⟩ :=
        members_member consumes only leads (.inr (.inr rfl)) passed
      refine .cons middles gaps (delimited_append white (.inr (.inr rfl)) rest) step ?_
      cases fuel with
      | zero => contradiction
      | succ fuel =>
        rw [members,name_close white] at others
        obtain ⟨rfl,-⟩ := Prod.mk.inj (Except.ok.inj others)
        exact .nil
  | @next s t entry list one _ ih =>
    cases fuel with
    | zero => contradiction
    | succ fuel =>
      rw [List.append_assoc,List.cons_append] at passed
      obtain ⟨middle,gap,after,next,middles,gaps,white,step,others⟩ :=
        members_member consumes one leads (.inl rfl) passed
      rw [List.append_cons] at others
      exact .cons middles gaps (delimited_append white (.inl rfl) _) step (ih (.comma white) others)

end Json.Read

namespace Codec
open Json.Read
variable {ρ : Type} {fields : List (Field ρ)} {depth : Nat} {field : Field ρ} {t : Bytes}
  {P : ρ → Prop}

/-- What reading a field from its text establishes. -/
def Establishes (depth : Nat) (P : ρ → Prop) (field : Field ρ) (t : Bytes) : Prop :=
  ∀ record next gap rest, Blanks gap → Delimited rest →
    field.read record depth (gap ++ (t ++ rest)) = .ok (next,rest) → P next

section
variable (others : ∀ other ∈ fields, other.name ≠ field.name → other.Preserves depth P)
include others

/-- A field that was given stays as it is to the end of the members. -/
theorem folds_seen {draft found : Draft ρ} {list : List (String × Bytes)}
    (folds : Folds (readStrict fields depth) draft list found) (seen : field.name ∈ draft.seen)
    (holds : P draft.record) : P found.record := by
  induction folds with
  | nil => exact holds
  | @cons _ _ _ key _ _ _ _ _ _ _ _ step _ ih =>
    obtain ⟨_,-,⟨-,rfl,-⟩ | ⟨other,record,known,fresh,read,rfl⟩⟩ := readStrict_ok step
    · exact ih seen holds
    · have named : other.name = key := by simpa using List.find?_some known
      refine ih (List.mem_cons_of_mem _ seen)
        (others other (List.mem_of_find?_eq_some known) ?_ _ _ _ _ holds read)
      rintro same
      exact fresh (named ▸ same ▸ seen)

theorem folds_member (known : field? fields field.name = some field)
    (own : Establishes depth P field t) {draft found : Draft ρ} {list : List (String × Bytes)}
    (folds : Folds (readStrict fields depth) draft list found) (inside : (field.name,t) ∈ list) :
    P found.record := by
  induction folds with
  | nil => exact absurd inside List.not_mem_nil
  | cons first second delimited step rest ih =>
    rcases List.mem_cons.mp inside with head | later
    · obtain ⟨rfl,rfl⟩ := Prod.mk.inj head
      obtain ⟨_,separated,⟨unknown,-,-⟩ | ⟨other,record,same,fresh,read,rfl⟩⟩ := readStrict_ok step
      · rw [known] at unknown
        contradiction
      · rw [known] at same
        obtain rfl := Option.some.inj same
        rw [(colon_iff _ _).mpr ⟨_,first,rfl⟩] at separated
        obtain rfl := Except.ok.inj separated
        exact folds_seen others rest List.mem_cons_self (own _ _ _ _ second delimited read)
    · exact ih later

end

/-- What fields make of the items of an array, one after another. -/
inductive Places (depth : Nat) : ρ → List (Field ρ) → List Bytes → ρ → Prop where
  | ended {record : ρ} {fields : List (Field ρ)} : Places depth record fields [] record
  | next {record next found : ρ} {field : Field ρ} {fields : List (Field ρ)} {v rest : Bytes}
      {items : List Bytes} (delimited : Delimited rest)
      (read : field.read record depth (v ++ rest) = .ok (next,rest))
      (others : Places depth next fields items found) :
      Places depth record (field :: fields) (v :: items) found

theorem delimited_of_readItems {short : Nat → Misfit} {index : Nat} {record found : ρ}
    {s left rest : Bytes}
    (passed : readItems short depth (index + 1) fields record s = .ok (found,left))
    (closed : closeArray left = .ok rest) : Delimited s := by
  cases fields with
  | nil =>
    obtain ⟨-,rfl⟩ := Prod.mk.inj (Except.ok.inj passed)
    obtain ⟨before,blanks,rfl⟩ := closeArray_sound closed
    exact delimited_append blanks (.inr (.inl rfl)) rest
  | cons field fields =>
    obtain ⟨⟨given,after⟩,more,-⟩ := bind_eq_ok.mp passed
    exact delimited_of_more more

/-- An item is read by the first field, and what follows it by the fields behind that one. -/
theorem readItems_item (each : ∀ field ∈ fields, field.Consumes) {short : Nat → Misfit} {index : Nat}
    {lead before v after : Bytes} (leads : Lead (index == 0) lead) (blanks : Blanks before)
    (value : Written .value v) (white : Blanks after) {b : UInt8}
    (closing : b = ascii ',' ∨ b = ascii ']' ∨ b = ascii '}') {record found : ρ}
    {rest left tail : Bytes} (passed : readItems short depth index fields record
      (lead ++ (before ++ (v ++ (after ++ b :: rest)))) = .ok (found,left))
    (closed : closeArray left = .ok tail) : ∃ field others next, fields = field :: others ∧
      field.read record depth (v ++ (after ++ b :: rest)) = .ok (next,after ++ b :: rest) ∧
      readItems short depth (index + 1) others next (after ++ b :: rest) = .ok (found,left) := by
  obtain ⟨c,u,shape,ink,bracket⟩ := Skip.value_head value
  have one : more (index == 0) (lead ++ (before ++ (v ++ (after ++ b :: rest)))) =
      .ok (true,v ++ (after ++ b :: rest)) := by
    rw [shape]
    exact more_complete leads blanks ink bracket
  cases fields with
  | nil =>
    obtain ⟨-,rfl⟩ := Prod.mk.inj (Except.ok.inj passed)
    obtain ⟨gap,gaps,split⟩ := closeArray_sound closed
    rw [split,more_close gaps] at one
    exact absurd (Prod.mk.inj (Except.ok.inj one)).1 Bool.false_ne_true
  | cons field others =>
    rw [readItems,one] at passed
    change (field.read record depth _ >>= fun read =>
      readItems short depth (index + 1) others read.1 read.2) = _ at passed
    obtain ⟨⟨next,behind⟩,read,later⟩ := bind_eq_ok.mp passed
    obtain ⟨gap,w,gaps,other,split⟩ := each field List.mem_cons_self _ _ _ _ _ read
    have same := consumed_unique gaps other (delimited_of_readItems later closed) blanks_nil value
      (delimited_append white closing rest) split.symm
    subst same
    exact ⟨field,others,next,rfl,read,later⟩

theorem places_items (each : ∀ field ∈ fields, field.Consumes) {short : Nat → Misfit} {index : Nat}
    {lead inside : Bytes} {items : List Bytes} (written : Items Verbatim inside items)
    {first : Bool} (place : (index == 0) = first) (leads : Lead first lead) {record found : ρ}
    {rest left tail : Bytes} (passed : readItems short depth index fields record
      (lead ++ (inside ++ ascii ']' :: rest)) = .ok (found,left)) (closed : closeArray left = .ok tail) :
    Places depth record fields items found := by
  induction written generalizing fields index first lead record with
  | last blanks value white =>
    obtain ⟨value,rfl⟩ := value
    rw [List.append_assoc,List.append_assoc] at passed
    obtain ⟨field,others,next,rfl,read,later⟩ :=
      readItems_item each (place ▸ leads) blanks value white (.inr (.inl rfl)) passed closed
    obtain ⟨rfl,-⟩ := readItems_ended white later
    exact .next (delimited_append white (.inr (.inl rfl)) rest) read .ended
  | next blanks value white _ ih =>
    obtain ⟨value,rfl⟩ := value
    simp only [List.append_assoc,List.cons_append] at passed
    obtain ⟨field,others,next,rfl,read,later⟩ :=
      readItems_item each (place ▸ leads) blanks value white (.inl rfl) passed closed
    rw [List.append_cons] at later
    exact .next (delimited_append white (.inl rfl) _) read
      (ih (fun field member => each field (List.mem_cons_of_mem _ member)) (by rfl) (.comma white)
        later)

theorem places_preserve (each : ∀ field ∈ fields, field.Preserves depth P) {record found : ρ}
    {items : List Bytes} (places : Places depth record fields items found) (holds : P record) :
    P found := by
  induction places with
  | ended => exact holds
  | next _ read _ ih =>
    obtain ⟨one,others⟩ := List.forall_mem_cons.mp each
    exact ih others (one _ _ _ _ holds read)

theorem places_item (names : (fields.map Field.name).Nodup)
    (others : ∀ other ∈ fields, other.name ≠ field.name → other.Preserves depth P)
    (own : Establishes depth P field t) {record found : ρ} {items : List Bytes}
    (places : Places depth record fields items found) {place : Nat}
    (here : fields[place]? = some field) (given : items[place]? = some t) : P found := by
  induction places generalizing place with
  | ended => contradiction
  | @next record next found first fields v rest items delimited read later ih =>
    obtain ⟨fresh,names⟩ := List.nodup_cons.mp names
    obtain ⟨-,behind⟩ := List.forall_mem_cons.mp others
    cases place with
    | zero =>
      obtain rfl := Option.some.inj here
      obtain rfl := Option.some.inj given
      refine places_preserve (fun other member => behind other member fun same => ?_) later
        (own _ _ [] rest blanks_nil delimited read)
      exact fresh (same ▸ List.mem_map_of_mem member)
    | succ place => exact ih names behind here given

/-- A strict record is what its field is read to from the text that stands for it, for all that the
other fields keep. -/
theorem strict_gives {label name : String} {blank record : ρ} {place : Nat}
    {s before rest left : Bytes} (blanks : Blanks before) (gives : Gives name place t s)
    (passed : (strict label blank fields).read (depth + 1) (before ++ (s ++ rest)) =
      .ok (record,left)) (known : field? fields name = some field)
    (here : fields[place]? = some field) (names : (fields.map Field.name).Nodup)
    (each : ∀ field ∈ fields, field.Consumes)
    (others : ∀ other ∈ fields, other.name ≠ name → other.Preserves depth P)
    (own : Establishes depth P field t) : P record := by
  obtain rfl : field.name = name := by simpa using List.find?_some known
  obtain ⟨inner,level,⟨u,_,bracket,items,closed⟩ | ⟨u,draft,_,brace,fold,-,rfl,-⟩⟩ :=
    strict_ok passed
  · obtain rfl := Nat.succ.inj level
    rw [skipBlanks_append blanks] at bracket
    cases gives with
    | member object _ =>
      cases object with
      | empty | members => exact absurd (List.cons.inj bracket).1 (by decide)
    | item sequence placed =>
      cases sequence with
      | empty => contradiction
      | items written =>
        rw [List.cons_append,skipBlanks_cons (by decide),List.append_assoc] at bracket
        obtain rfl := (List.cons.inj bracket).2
        exact places_item names others own (places_items each written (by rfl) .start items closed)
          here placed
  · obtain rfl := Nat.succ.inj level
    rw [skipBlanks_append blanks] at brace
    cases gives with
    | member object inside =>
      cases object with
      | empty => exact absurd inside List.not_mem_nil
      | members written =>
        rw [List.cons_append,skipBlanks_cons (by decide),List.append_assoc] at brace
        obtain rfl := (List.cons.inj brace).2
        exact folds_member others known own
          (folds_members (readStrict_consumes each depth) written .start fold) inside
    | item sequence _ =>
      cases sequence with
      | empty | items => exact absurd (List.cons.inj brace).1 (by decide)

end Codec
end NodeAudit
