import NodeAudit.Instant
import NodeAudit.Proofs.Codec.Record
import NodeAudit.Proofs.Json.Meaning
import NodeAudit.Resource.KubeletConfig
import NodeAudit.Resource.MachineConfigPool

/-! Whatever a codec reads from text, it takes up one value of the grammar: records too, whichever
of their fields are given and in whichever form. -/
namespace NodeAudit
open Json

namespace Json.Read
variable {α σ : Type}

/-- A reader takes up the text of one value, with the blanks before it. -/
def Consumes (read : Bytes → Except Stop (α × Bytes)) : Prop :=
  Sound read fun v _ => Written .value v

/-- Values of the grammar that begin at one place end at one place. -/
theorem consumed_unique {before v rest gap w left : Bytes} (first : Blanks before)
    (value : Written .value v) (delimited : Delimited rest) (second : Blanks gap)
    (other : Written .value w) (ends : Delimited left)
    (same : before ++ (v ++ rest) = gap ++ (w ++ left)) : rest = left := by
  have one := Skip.value_complete first value delimited
  rw [same,Skip.value_complete second other ends] at one
  exact (Except.ok.inj one).symm

theorem consumes_atByte {read : UInt8 → Bytes → Except Stop (α × Bytes)}
    (each : ∀ b t a rest, read b t = .ok (a,rest) → ∃ v, Written .value v ∧ b :: t = v ++ rest) :
    Consumes (Codec.atByte read) := by
  intro s a rest passed
  obtain ⟨before,blanks,whole⟩ := skipBlanks_split s
  rw [Codec.atByte] at passed
  split at passed
  next => contradiction
  next b t left =>
    obtain ⟨v,value,split⟩ := each b t a rest passed
    exact ⟨before,v,blanks,value,by rw [whole,left,split]⟩

theorem string_written {t rest : Bytes} {text : String} (read : string t = .ok (text,rest)) :
    ∃ v, Written .value v ∧ ascii '"' :: t = v ++ rest := by
  obtain ⟨body,rfl,spelled⟩ := (string_iff _ _ _).mp read
  exact ⟨_,.text (spells_body spelled),by simp⟩

theorem array_consumes {item : Bytes → Except Stop (α × Bytes)} (consumes : Consumes item)
    {t rest : Bytes} {list : List α} (read : array item t = .ok (list,rest)) :
    ∃ v, Written .value v ∧ ascii '[' :: t = v ++ rest := by
  obtain ⟨text,sequence,whole⟩ := array_sound consumes read
  exact ⟨text,sequence_written (fun _ _ => id) sequence,whole⟩

theorem object_consumes {value : Bytes → Except Stop (α × Bytes)} (consumes : Consumes value)
    {t rest : Bytes} {map : SortedMap α} (read : object value t = .ok (map,rest)) :
    ∃ v, Written .value v ∧ ascii '{' :: t = v ++ rest := by
  obtain ⟨text,list,object,whole,-⟩ := object_sound consumes read
  exact ⟨text,object_written (fun _ _ => id) object,whole⟩

/-- A reader of members takes up what stands behind a name: a colon and the text of a value. -/
def ConsumesMember (member : σ → String → Bytes → Except Stop (σ × Bytes)) : Prop :=
  ∀ state key s next rest, member state key s = .ok (next,rest) → ∃ middle gap v,
    Blanks middle ∧ Blanks gap ∧ Written .value v ∧ s = middle ++ ascii ':' :: (gap ++ (v ++ rest))

theorem colon_value {s after rest : Bytes} (separated : colon s = .ok after)
    (taken : ∃ before v, Blanks before ∧ Written .value v ∧ after = before ++ (v ++ rest)) :
    ∃ middle gap v, Blanks middle ∧ Blanks gap ∧ Written .value v ∧
      s = middle ++ ascii ':' :: (gap ++ (v ++ rest)) := by
  obtain ⟨middle,blanks,rfl⟩ := (colon_iff _ _).mp separated
  obtain ⟨gap,v,gaps,value,rfl⟩ := taken
  exact ⟨middle,gap,v,blanks,gaps,value,rfl⟩

theorem delimited_of_name {s rest : Bytes} {found : Option String}
    (read : name false s = .ok (found,rest)) : Delimited s := by
  cases found with
  | none =>
    obtain ⟨before,tail,blanks,rfl,rfl⟩ := name_none read
    exact delimited_append blanks (.inr (.inr rfl)) tail
  | some key =>
    obtain ⟨lead,before,body,leads,-,-,rfl⟩ := name_some read
    cases leads with
    | comma blanks =>
      rw [List.append_assoc]
      exact delimited_append blanks (.inl rfl) _

section
variable {member : σ → String → Bytes → Except Stop (σ × Bytes)}

theorem delimited_of_members {fuel : Nat} {state found : σ} {s rest : Bytes}
    (passed : members member fuel false state s = .ok (found,rest)) : Delimited s := by
  cases fuel with
  | zero => contradiction
  | succ fuel =>
    obtain ⟨⟨key,left⟩,named,-⟩ := bind_eq_ok.mp passed
    exact delimited_of_name named

/-- What a reader of members makes of the members of an object, one after another. -/
inductive Folds (member : σ → String → Bytes → Except Stop (σ × Bytes)) :
    σ → List (String × Bytes) → σ → Prop where
  | nil {state : σ} : Folds member state [] state
  | cons {state next found : σ} {key : String} {middle gap v rest : Bytes}
      {list : List (String × Bytes)} (first : Blanks middle) (second : Blanks gap)
      (delimited : Delimited rest)
      (step : member state key (middle ++ ascii ':' :: (gap ++ (v ++ rest))) = .ok (next,rest))
      (others : Folds member next list found) : Folds member state ((key,v) :: list) found

/-- Members that were read are those of an object, up to its closing brace. -/
theorem members_folds (consumes : ConsumesMember member) {fuel : Nat} {first : Bool}
    {state found : σ} {s rest : Bytes}
    (passed : members member fuel first state s = .ok (found,rest)) :
    ∃ tail, rest = ascii '}' :: tail ∧
      ((∃ before, Blanks before ∧ s = before ++ rest ∧ found = state) ∨
        ∃ lead inside list, Lead first lead ∧ Members Verbatim inside list ∧
          s = lead ++ (inside ++ rest) ∧ Folds member state list found) := by
  induction fuel generalizing first state s with
  | zero => simp [members,stopAt] at passed
  | succ fuel ih =>
    obtain ⟨⟨key,left⟩,named,passed⟩ := bind_eq_ok.mp passed
    cases key with
    | none =>
      obtain ⟨rfl,rfl⟩ := Prod.mk.inj (Except.ok.inj passed)
      obtain ⟨before,tail,blanks,closed,whole⟩ := name_none named
      exact ⟨tail,closed,.inl ⟨before,blanks,whole,rfl⟩⟩
    | some key =>
      obtain ⟨⟨next,left⟩,step,others⟩ := bind_eq_ok.mp passed
      obtain ⟨lead,before,body,leads,blanks,spelled,rfl⟩ := name_some named
      obtain ⟨middle,gap,v,middles,gaps,value,rfl⟩ := consumes _ _ _ _ _ step
      have delimited := delimited_of_members others
      obtain ⟨tail,closed,⟨after,white,rfl,rfl⟩ | ⟨lead,inside,list,later,more,rfl,folds⟩⟩ :=
        ih others
      · refine ⟨tail,closed,.inr ⟨lead,_,_,leads,
          .last (.parts blanks spelled middles gaps ⟨value,rfl⟩ white),?_,
          .cons middles gaps delimited step .nil⟩⟩
        simp
      · cases later with
        | comma white =>
          refine ⟨tail,closed,.inr ⟨lead,_,_,leads,
            .next (.parts blanks spelled middles gaps ⟨value,rfl⟩ white) more,?_,
            .cons middles gaps delimited step folds⟩⟩
          simp

/-- The text of an object was read from its opening brace on. -/
theorem object_folds (consumes : ConsumesMember member) {fuel : Nat} {state found : σ}
    {t left rest : Bytes} (passed : members member fuel true state t = .ok (found,left))
    (closed : closeObject left = .ok rest) : ∃ text list, Object Verbatim text list ∧
      ascii '{' :: t = text ++ rest ∧ Folds member state list found := by
  obtain ⟨tail,rfl,⟨before,blanks,rfl,rfl⟩ | ⟨lead,inside,list,leads,written,rfl,folds⟩⟩ :=
    members_folds consumes passed
  · obtain rfl := Except.ok.inj ((closeObject_brace tail).symm.trans closed)
    exact ⟨_,_,.empty blanks,by simp,.nil⟩
  · obtain rfl := Except.ok.inj ((closeObject_brace tail).symm.trans closed)
    cases leads with
    | start => exact ⟨_,_,.members written,by simp,folds⟩

end

end Json.Read

namespace Codec
open Json.Read
variable {α ρ : Type}

/-- A codec takes up one value, however deep it may read. -/
def Consumes (codec : Codec α) : Prop := ∀ depth, Read.Consumes (codec.read depth)

@[simp] theorem string_consumes : string.Consumes := by
  refine fun _ => consumes_atByte fun b t a rest passed => ?_
  split at passed
  next quote => exact quote ▸ string_written passed
  next => exact absurd passed (mismatch_error _ _ _)

@[simp] theorem boolean_consumes : boolean.Consumes := by
  refine fun _ => consumes_atByte fun b t a rest passed => ?_
  split at passed
  next letter =>
    obtain ⟨-,rfl⟩ := word_ok passed
    exact ⟨_,.true,by rw [letter]; rfl⟩
  split at passed
  next letter =>
    obtain ⟨-,rfl⟩ := word_ok passed
    exact ⟨_,.false,by rw [letter]; rfl⟩
  next => exact absurd passed (mismatch_error _ _ _)

theorem whole_consumes (expected : String) (ofInt? : Int → Option α) (toNumber : α → Number) :
    (whole expected ofInt? toNumber).Consumes := by
  refine fun _ => consumes_atByte fun b t a rest passed => ?_
  split at passed
  next =>
    simp only at passed
    split at passed
    next sign =>
      obtain ⟨⟨x,left⟩,read,judged⟩ := bind_eq_ok.mp passed
      obtain ⟨v,alone,rfl⟩ := number_split read
      refine ⟨_,.negative (number_place alone).1,?_⟩
      simp only at judged
      split at judged
      next => rw [sign,(Prod.mk.inj (Except.ok.inj judged)).2,List.cons_append]
      next => contradiction
    next =>
      obtain ⟨⟨x,left⟩,read,judged⟩ := bind_eq_ok.mp passed
      obtain ⟨v,alone,split⟩ := number_split read
      refine ⟨v,.positive (number_place alone).1,?_⟩
      simp only at judged
      split at judged
      next => rw [split,(Prod.mk.inj (Except.ok.inj judged)).2]
      next => contradiction
  next => exact absurd passed (mismatch_error _ _ _)

@[simp] theorem int32_consumes : int32.Consumes := whole_consumes _ _ _

@[simp] theorem int64_consumes : int64.Consumes := whole_consumes _ _ _

@[simp] theorem json_consumes : json.Consumes := by
  intro depth s a rest passed
  obtain ⟨before,v,blanks,means,whole⟩ := (reads_value depth).sound _ _ _ passed
  exact ⟨before,v,blanks,means_written means,whole⟩

@[simp] theorem optional_consumes {codec : Codec α} (consumes : codec.Consumes) :
    codec.optional.Consumes := by
  intro depth s a rest passed
  obtain ⟨before,blanks,whole⟩ := skipBlanks_split s
  obtain ⟨-,null⟩ | ⟨_,-,read⟩ := optional_ok passed
  · exact ⟨before,_,blanks,.null,by rw [whole,null]⟩
  · obtain ⟨gap,v,gaps,value,split⟩ := consumes depth _ _ _ read
    exact ⟨before ++ gap,v,blanks_append blanks gaps,value,by rw [whole,split,List.append_assoc]⟩

@[simp] theorem list_consumes {codec : Codec α} (consumes : codec.Consumes) :
    codec.list.Consumes := by
  refine fun depth => consumes_atByte fun b t a rest passed => ?_
  split at passed
  next bracket =>
    obtain ⟨inner,-,read⟩ := within_ok passed
    exact bracket ▸ array_consumes (consumes inner) read
  next => exact absurd passed (mismatch_error _ _ _)

@[simp] theorem map_consumes {codec : Codec α} (consumes : codec.Consumes) :
    codec.map.Consumes := by
  refine fun depth => consumes_atByte fun b t a rest passed => ?_
  split at passed
  next brace =>
    obtain ⟨inner,-,read⟩ := within_ok passed
    exact brace ▸ object_consumes (consumes inner) read
  next => exact absurd passed (mismatch_error _ _ _)

@[simp] theorem instant_consumes : instant.Consumes := by
  refine fun _ => consumes_atByte fun b t a rest passed => ?_
  split at passed
  next quote =>
    obtain ⟨⟨text,left⟩,read,passed⟩ := bind_eq_ok.mp passed
    have same : left = rest := by
      simp only at passed
      split at passed
      next => exact (Prod.mk.inj (Except.ok.inj passed)).2
      next => contradiction
    exact quote ▸ same ▸ string_written read
  next => exact absurd passed (mismatch_error _ _ _)

end Codec

/-- A field takes up one value, whatever its record is so far. -/
def Field.Consumes {ρ : Type} (field : Field ρ) : Prop :=
  ∀ record depth, Read.Consumes (field.read record depth)

@[simp] theorem Field.of_consumes {ρ α : Type} {name : String} {codec : Codec α} {get : ρ → α}
    {set : ρ → α → ρ} (consumes : codec.Consumes) : (Field.of name codec get set).Consumes := by
  intro record depth s next rest passed
  obtain ⟨⟨a,_⟩,read,passed⟩ := Json.Read.bind_eq_ok.mp passed
  obtain ⟨-,rfl⟩ := Prod.mk.inj (Except.ok.inj passed)
  exact consumes depth _ _ _ read

@[simp] theorem Field.need_consumes {ρ α : Type} {name : String} {codec : Codec α} {get : ρ → α}
    {set : ρ → α → ρ} (consumes : codec.Consumes) : (Field.need name codec get set).Consumes :=
  @of_consumes ρ α name codec get set consumes

@[simp] theorem Field.maybe_consumes {ρ α : Type} {name : String} {codec : Codec α}
    {get : ρ → Option α} {set : ρ → Option α → ρ} (consumes : codec.Consumes) :
    (Field.maybe name codec get set).Consumes :=
  @of_consumes ρ _ name codec.optional get set (Codec.optional_consumes consumes)

@[simp] theorem Field.filled_consumes {ρ α : Type} [Inhabited α] {name : String} {codec : Codec α}
    {get : ρ → α} {set : ρ → α → ρ} (consumes : codec.Consumes) :
    (Field.filled name codec get set).Consumes :=
  @of_consumes ρ _ name codec.optional (fun record => some (get record)) _
    (Codec.optional_consumes consumes)

namespace Codec
open Json.Read
variable {ρ : Type} {fields : List (Field ρ)}

theorem readStrict_consumes (each : ∀ field ∈ fields, field.Consumes) (depth : Nat) :
    ConsumesMember (readStrict fields depth) := by
  intro draft key s next rest passed
  obtain ⟨_,separated,⟨-,-,skipped⟩ | ⟨field,_,known,-,read,-⟩⟩ := readStrict_ok passed
  · exact colon_value separated (Skip.value_sound _ _ skipped)
  · exact colon_value separated (each field (List.mem_of_find?_eq_some known) _ _ _ _ _ read)

theorem readLenient_consumes (each : ∀ field ∈ fields, field.Consumes) (depth : Nat) :
    ConsumesMember (readLenient fields depth) := by
  intro record key s next rest passed
  rw [readLenient] at passed
  split at passed
  next =>
    obtain ⟨_,separated,passed⟩ := bind_eq_ok.mp passed
    obtain ⟨_,skipped,passed⟩ := bind_eq_ok.mp passed
    obtain ⟨-,rfl⟩ := Prod.mk.inj (Except.ok.inj passed)
    exact colon_value separated (Skip.value_sound _ _ skipped)
  next field known =>
    obtain ⟨_,separated,read⟩ := bind_eq_ok.mp passed
    exact colon_value separated (each field (List.mem_of_find?_eq_some known) _ _ _ _ _ read)

/-- The members of a record and its closing brace are those of an object. -/
theorem record_consumes {σ : Type} {member : σ → String → Bytes → Except Stop (σ × Bytes)}
    (consumes : ConsumesMember member) {fuel : Nat} {state found : σ} {t left rest : Bytes}
    (passed : Read.members member fuel true state t = .ok (found,left))
    (closed : closeObject left = .ok rest) :
    ∃ v, Written .value v ∧ ascii '{' :: t = v ++ rest := by
  obtain ⟨text,_,object,whole,-⟩ := object_folds consumes passed closed
  exact ⟨text,object_written (fun _ _ verbatim => verbatim.1) object,whole⟩

theorem lenient_consumes {name : String} {blank : ρ} (each : ∀ field ∈ fields, field.Consumes) :
    (lenient name blank fields).Consumes := by
  refine fun depth => consumes_atByte fun b t a rest passed => ?_
  split at passed
  next =>
    obtain ⟨inner,-,read⟩ := within_ok passed
    contradiction
  split at passed
  next brace =>
    obtain ⟨inner,-,read⟩ := within_ok passed
    obtain ⟨⟨found,left⟩,inside,read⟩ := bind_eq_ok.mp read
    obtain ⟨_,closed,read⟩ := bind_eq_ok.mp read
    obtain ⟨-,rfl⟩ := Prod.mk.inj (Except.ok.inj read)
    exact brace ▸ record_consumes (readLenient_consumes each inner) inside closed
  next => exact absurd passed (mismatch_error _ _ _)

theorem closeArray_sound {s rest : Bytes} (closed : closeArray s = .ok rest) :
    ∃ before, Blanks before ∧ s = before ++ ascii ']' :: rest := by
  obtain ⟨before,blanks,whole⟩ := skipBlanks_split s
  rw [closeArray] at closed
  split at closed
  next => simp [stopAt] at closed
  next b t left =>
    rw [left] at whole
    split at closed
    next bracket =>
      rw [bracket,Except.ok.inj closed] at whole
      exact ⟨before,blanks,whole⟩
    split at closed
    next =>
      split at closed
      next => simp [stopAt] at closed
      next => split at closed <;> simp [stopAt] at closed
    next => simp [stopAt] at closed

theorem closeArray_append {before : Bytes} (blanks : Blanks before) (s : Bytes) :
    closeArray (before ++ s) = closeArray s := by
  rw [closeArray,skipBlanks_append blanks,closeArray]

/-- Once the items have ended, the fields that are left keep the record as it is. -/
theorem readItems_ended {short : Nat → Misfit} {depth index : Nat} {record found : ρ}
    {before tail left : Bytes} (blanks : Blanks before)
    (passed : readItems short depth index fields record (before ++ ascii ']' :: tail) =
      .ok (found,left)) :
    found = record ∧ ∃ gap, Blanks gap ∧ left = gap ++ ascii ']' :: tail := by
  induction fields generalizing index before with
  | nil =>
    obtain ⟨rfl,rfl⟩ := Prod.mk.inj (Except.ok.inj passed)
    exact ⟨rfl,before,blanks,rfl⟩
  | cons field fields ih =>
    rw [readItems,show more (index == 0) (before ++ ascii ']' :: tail) = _ from
      more_close blanks tail] at passed
    change (if field.required then _ else _) = _ at passed
    split at passed
    next => contradiction
    next => exact ih blanks_nil passed

/-- Fields by position take up the items of an array. -/
theorem readItems_closes (each : ∀ field ∈ fields, field.Consumes) {short : Nat → Misfit}
    {depth index : Nat} {record found : ρ} {s left rest : Bytes}
    (passed : readItems short depth index fields record s = .ok (found,left))
    (closed : closeArray left = .ok rest) : Skip.Closes .items (ascii ']') (index == 0) s rest := by
  induction fields generalizing index record s with
  | nil =>
    obtain ⟨-,rfl⟩ := Prod.mk.inj (Except.ok.inj passed)
    obtain ⟨before,blanks,rfl⟩ := closeArray_sound closed
    exact .here blanks
  | cons field fields ih =>
    obtain ⟨one,others⟩ := List.forall_mem_cons.mp each
    obtain ⟨⟨given,after⟩,more,remaining⟩ := bind_eq_ok.mp passed
    cases given with
    | true =>
      obtain ⟨⟨next,middle⟩,read,later⟩ := bind_eq_ok.mp remaining
      obtain ⟨lead,before,leads,blanks,rfl⟩ := more_true more
      obtain ⟨gap,v,gaps,value,rfl⟩ := one _ _ _ _ _ read
      obtain ⟨inside,written,equal⟩ :=
        Skip.item_closes (blanks_append blanks gaps) value (ih others later)
      rw [← List.append_assoc before,equal]
      exact .after leads written
    | false =>
      simp only at remaining
      split at remaining
      next => contradiction
      next =>
        obtain ⟨before,tail,blanks,rfl,rfl⟩ := more_false more
        obtain ⟨-,gap,gaps,rfl⟩ := readItems_ended blanks_nil remaining
        rw [closeArray_append gaps,closeArray_bracket] at closed
        obtain rfl := Except.ok.inj closed
        exact .here blanks

theorem strict_consumes {name : String} {blank : ρ} (each : ∀ field ∈ fields, field.Consumes) :
    (strict name blank fields).Consumes := by
  intro depth s record rest passed
  obtain ⟨before,blanks,whole⟩ := skipBlanks_split s
  obtain ⟨inner,-,⟨t,left,bracket,items,closed⟩ | ⟨t,_,left,brace,inside,-,-,closed⟩⟩ :=
    strict_ok passed
  · rw [bracket] at whole
    rcases readItems_closes each items closed with ⟨white⟩ | ⟨⟨⟩,written⟩
    · exact ⟨before,_,blanks,.emptyArray white,by simp [whole]⟩
    · exact ⟨before,_,blanks,.array written,by simp [whole]⟩
  · obtain ⟨v,value,split⟩ := record_consumes (readStrict_consumes each inner) inside closed
    exact ⟨before,v,blanks,value,by rw [whole,brace,split]⟩

end Codec

theorem OwnerReference.codec_consumes : OwnerReference.codec.Consumes :=
  Codec.lenient_consumes (by simp)

theorem LabelRequirement.codec_consumes : LabelRequirement.codec.Consumes :=
  Codec.lenient_consumes (by simp)

theorem LabelSelector.codec_consumes : LabelSelector.codec.Consumes :=
  Codec.lenient_consumes (by simp [LabelRequirement.codec_consumes])

theorem ManagedFields.codec_consumes : ManagedFields.codec.Consumes :=
  Codec.lenient_consumes (by simp)

theorem Metadata.codec_consumes : Metadata.codec.Consumes :=
  Codec.lenient_consumes (by
    simp [OwnerReference.codec_consumes,ManagedFields.codec_consumes])

theorem ObjectReference.codec_consumes : ObjectReference.codec.Consumes :=
  Codec.lenient_consumes (by simp)

theorem PoolConfiguration.codec_consumes : MachineConfigPool.configurationCodec.Consumes :=
  Codec.strict_consumes (by simp [ObjectReference.codec_consumes])

theorem PoolSpec.codec_consumes : MachineConfigPool.specCodec.Consumes :=
  Codec.strict_consumes (by
    simp [LabelSelector.codec_consumes,PoolConfiguration.codec_consumes])

theorem KubeletConfig.specCodec_consumes : KubeletConfig.specCodec.Consumes :=
  Codec.strict_consumes (by simp [LabelSelector.codec_consumes])

end NodeAudit
