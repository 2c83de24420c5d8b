import NodeAudit.Proofs.Json.Array
import NodeAudit.Proofs.Json.Compact
import NodeAudit.Proofs.Json.Magnitude
import NodeAudit.Proofs.SortedMap

/-! What a JSON text means, told without any reader but that of numbers. Reading a value to a depth
gives what its text means, wherever the text stands. -/
namespace NodeAudit.Json
open Read

/-- The text of a value, where the texts of the values in it are told by `inner`, if nesting goes
on. -/
inductive Element (inner : Option (Bytes → Json → Prop)) : Bytes → Json → Prop where
  | null : Element inner (word "null") .null
  | true : Element inner (word "true") (.boolean true)
  | false : Element inner (word "false") (.boolean false)
  | positive {s : Bytes} {x : Number} (reads : Read.number Bool.false s = .ok (x,[])) :
      Element inner s (.number x)
  | negative {s : Bytes} {x : Number} (reads : Read.number Bool.true s = .ok (x,[])) :
      Element inner (ascii '-' :: s) (.number x)
  | text {s : Bytes} {content : String} (spelled : Spells s (Utf8.bytes content)) :
      Element inner (ascii '"' :: (s ++ [ascii '"'])) (.text content)
  | array {value : Bytes → Json → Prop} {s : Bytes} {list : List Json} (nested : inner = some value)
      (sequence : Sequence value s list) : Element inner s (.array list)
  | object {value : Bytes → Json → Prop} {s : Bytes} {list : List (String × Json)}
      (nested : inner = some value) (object : Object value s list) :
      Element inner s (.object (SortedMap.ofList list).entries)

/-- What a text means that is nested at most as deep as the number says. -/
def Means : Nat → Bytes → Json → Prop
  | 0 => Element none
  | depth + 1 => Element (some (Means depth))

section
variable {α : Type} {denotes other : Bytes → α → Prop}

theorem Items.mono (stronger : ∀ v a, denotes v a → other v a) {s : Bytes} {list : List α}
    (written : Items denotes s list) : Items other s list := by
  induction written with
  | last first value second => exact .last first (stronger _ _ value) second
  | next first value second _ ih => exact .next first (stronger _ _ value) second ih

theorem Sequence.mono (stronger : ∀ v a, denotes v a → other v a) {s : Bytes} {list : List α}
    (written : Sequence denotes s list) : Sequence other s list := by
  cases written with
  | empty inside => exact .empty inside
  | items inside => exact .items (inside.mono stronger)

theorem Object.mono (stronger : ∀ v a, denotes v a → other v a) {s : Bytes}
    {list : List (String × α)} (written : Object denotes s list) : Object other s list := by
  cases written with
  | empty inside => exact .empty inside
  | members inside => exact .members (inside.mono fun v member _ => stronger v member.2)

theorem Items.values {s : Bytes} {list : List α} (written : Items denotes s list) :
    ∀ a ∈ list, ∃ v, denotes v a := by
  induction written with
  | last _ value => exact List.forall_mem_singleton.mpr ⟨_,value⟩
  | next _ value _ _ ih => exact List.forall_mem_cons.mpr ⟨⟨_,value⟩,ih⟩

theorem Sequence.values {s : Bytes} {list : List α} (written : Sequence denotes s list) :
    ∀ a ∈ list, ∃ v, denotes v a := by
  cases written with
  | empty => exact List.forall_mem_nil _
  | items inside => exact inside.values

theorem items_written (values : ∀ v a, denotes v a → Written .value v) {s : Bytes} {list : List α}
    (written : Items denotes s list) : Written .items s := by
  induction written with
  | last first value second => exact .lastItem first (values _ _ value) second
  | next first value second _ ih => exact .nextItem first (values _ _ value) second ih

theorem sequence_written (values : ∀ v a, denotes v a → Written .value v) {s : Bytes}
    {list : List α} (written : Sequence denotes s list) : Written .value s := by
  cases written with
  | empty inside => exact .emptyArray inside
  | items inside => exact .array (items_written values inside)

theorem headed_of_written (values : ∀ v a, denotes v a → Written .value v) : Headed denotes :=
  fun v a value => Skip.value_head (values v a value)

end

namespace Read

theorem number_place {negative : Bool} {s : Bytes} {x : Number}
    (reads : number negative s = .ok (x,[])) : Magnitude s ∧ ∀ rest, Delimited rest →
      number negative (s ++ rest) = .ok (x,rest) := by
  obtain ⟨t,form,rfl,again⟩ := takes_number _ _ _ _ reads
  rw [List.append_nil]
  exact ⟨form,again⟩

theorem number_split {negative : Bool} {s rest : Bytes} {x : Number}
    (read : number negative s = .ok (x,rest)) :
    ∃ v, number negative v = .ok (x,[]) ∧ s = v ++ rest := by
  obtain ⟨v,-,whole,again⟩ := takes_number _ _ _ _ read
  have alone := again [] trivial
  rw [List.append_nil] at alone
  exact ⟨v,alone,whole⟩

end Read

theorem Element.written {inner : Option (Bytes → Json → Prop)}
    (values : ∀ value, inner = some value → ∀ v a, value v a → Written .value v) {s : Bytes} {a : Json}
    (element : Element inner s a) : Written .value s := by
  cases element with
  | null => exact .null
  | true => exact .true
  | false => exact .false
  | positive reads => exact .positive (number_place reads).1
  | negative reads => exact .negative (number_place reads).1
  | text spelled => exact .text (spells_body spelled)
  | array nested sequence => exact sequence_written (values _ nested) sequence
  | object nested object => exact object_written (values _ nested) object

theorem Element.mono {inner outer : Option (Bytes → Json → Prop)}
    (stronger : ∀ value, inner = some value →
      ∃ other, outer = some other ∧ ∀ v a, value v a → other v a)
    {s : Bytes} {a : Json} (element : Element inner s a) : Element outer s a := by
  cases element with
  | null => exact .null
  | true => exact .true
  | false => exact .false
  | positive reads => exact .positive reads
  | negative reads => exact .negative reads
  | text spelled => exact .text spelled
  | array nested sequence =>
    obtain ⟨other,deeper,weaker⟩ := stronger _ nested
    exact .array deeper (sequence.mono weaker)
  | object nested object =>
    obtain ⟨other,deeper,weaker⟩ := stronger _ nested
    exact .object deeper (object.mono weaker)

theorem means_written {depth : Nat} {s : Bytes} {a : Json} (means : Means depth s a) :
    Written .value s := by
  induction depth generalizing s a with
  | zero => exact means.written fun _ impossible => by cases impossible
  | succ depth ih =>
    refine means.written fun value nested v a given => ?_
    obtain rfl := Option.some.inj nested
    exact ih given

theorem means_succ {depth : Nat} {s : Bytes} {a : Json} (means : Means depth s a) :
    Means (depth + 1) s a := by
  induction depth generalizing s a with
  | zero => exact means.mono fun _ impossible => by cases impossible
  | succ depth ih =>
    refine means.mono fun value nested => ⟨_,rfl,fun v a given => ?_⟩
    obtain rfl := Option.some.inj nested
    exact ih given

theorem means_mono {depth deeper : Nat} (bound : depth ≤ deeper) {s : Bytes} {a : Json}
    (means : Means depth s a) : Means deeper s a := by
  induction bound with
  | refl => exact means
  | step _ ih => exact means_succ ih

namespace Read

theorem element_append {before : Bytes} (blanks : Blanks before)
    (inner : Option (Bytes → Except Stop (Json × Bytes))) (s : Bytes) :
    element inner (before ++ s) = element inner s := by
  rw [element,skipBlanks_append blanks,element]

theorem element_negative (inner : Option (Bytes → Except Stop (Json × Bytes))) (s : Bytes) :
    element inner (ascii '-' :: s) = do
      let (read,rest) ← number true s
      return (.number read,rest) := by
  rw [element,skipBlanks_cons (by decide)]
  rfl

theorem element_text (inner : Option (Bytes → Except Stop (Json × Bytes))) (s : Bytes) :
    element inner (ascii '"' :: s) = do
      let (read,rest) ← string s
      return (.text read,rest) := by
  rw [element,skipBlanks_cons (by decide)]
  rfl

theorem element_array (value : Bytes → Except Stop (Json × Bytes)) (s : Bytes) :
    element (some value) (ascii '[' :: s) = do
      let (read,rest) ← array value s
      return (.array read,rest) := by
  rw [element,skipBlanks_cons (by decide)]
  rfl

theorem element_object (value : Bytes → Except Stop (Json × Bytes)) (s : Bytes) :
    element (some value) (ascii '{' :: s) = do
      let (read,rest) ← object value s
      return (.object read.entries,rest) := by
  rw [element,skipBlanks_cons (by decide)]
  rfl

theorem element_digit (inner : Option (Bytes → Except Stop (Json × Bytes))) {b : UInt8}
    (digit : (digit? b).isSome = true) (s : Bytes) :
    element inner (b :: s) = do
      let (read,rest) ← number false (b :: s)
      return (.number read,rest) := by
  obtain ⟨ink,other⟩ := Skip.digit_plain digit
  rw [element,skipBlanks_cons ink]
  simp only [other _ (show (digit? (ascii 'n')).isSome = false by decide),
    other _ (show (digit? (ascii 't')).isSome = false by decide),
    other _ (show (digit? (ascii 'f')).isSome = false by decide),
    other _ (show (digit? (ascii '-')).isSome = false by decide),digit,if_false,if_true]

/-- A word takes up its letters, the first of which told what it is. -/
theorem element_word {inner : Option (Bytes → Except Stop (Json × Bytes))} (first : Char)
    (expected : Bytes) {rest : Bytes} {a : Json} (starts : ∀ t, element inner (ascii first :: t) = do
      return (a,← literal expected t)) :
    element inner (ascii first :: (expected ++ rest)) = .ok (a,rest) := by
  rw [starts,(literal_iff _ _ _).mpr rfl]
  rfl

theorem element_sound {inner : Option (Bytes → Except Stop (Json × Bytes))}
    {denotes : Option (Bytes → Json → Prop)} (nested : Option.Rel Reads inner denotes)
    (values : ∀ value, denotes = some value → ∀ v a, value v a → Written .value v)
    {s rest : Bytes} {a : Json} (passed : element inner s = .ok (a,rest)) :
    ∃ before v, Blanks before ∧ Element denotes v a ∧ s = before ++ (v ++ rest) := by
  obtain ⟨before,blanks,whole⟩ := skipBlanks_split s
  refine ⟨before,?_⟩
  rw [element] at passed
  split at passed
  next => simp [stopAt] at passed
  next b t left =>
    rw [left] at whole
    split at passed
    next letter =>
      obtain ⟨rfl,rfl⟩ := word_ok passed
      exact ⟨_,blanks,.null,by rw [whole,letter]; rfl⟩
    split at passed
    next letter =>
      obtain ⟨rfl,rfl⟩ := word_ok passed
      exact ⟨_,blanks,.true,by rw [whole,letter]; rfl⟩
    split at passed
    next letter =>
      obtain ⟨rfl,rfl⟩ := word_ok passed
      exact ⟨_,blanks,.false,by rw [whole,letter]; rfl⟩
    split at passed
    next sign =>
      obtain ⟨⟨x,_⟩,read,passed⟩ := bind_eq_ok.mp passed
      obtain ⟨rfl,rfl⟩ := Prod.mk.inj (Except.ok.inj passed)
      obtain ⟨v,alone,rfl⟩ := number_split read
      exact ⟨_,blanks,.negative alone,by rw [whole,sign,List.cons_append]⟩
    split at passed
    next digit =>
      obtain ⟨⟨x,_⟩,read,passed⟩ := bind_eq_ok.mp passed
      obtain ⟨rfl,rfl⟩ := Prod.mk.inj (Except.ok.inj passed)
      obtain ⟨v,alone,split⟩ := number_split read
      exact ⟨v,blanks,.positive alone,by rw [whole,split]⟩
    split at passed
    next quote =>
      obtain ⟨⟨x,_⟩,read,passed⟩ := bind_eq_ok.mp passed
      obtain ⟨rfl,rfl⟩ := Prod.mk.inj (Except.ok.inj passed)
      obtain ⟨body,rfl,spelled⟩ := (string_iff _ _ _).mp read
      exact ⟨_,blanks,.text spelled,by rw [whole,quote]; simp⟩
    split at passed
    next bracket =>
      cases nested with
      | none => simp [stopAt] at passed
      | some reads =>
        obtain ⟨⟨list,_⟩,read,passed⟩ := bind_eq_ok.mp passed
        obtain ⟨rfl,rfl⟩ := Prod.mk.inj (Except.ok.inj passed)
        obtain ⟨v,sequence,split⟩ :=
          (array_iff (headed_of_written (values _ rfl)) reads _ _ _).mp read
        exact ⟨v,blanks,.array rfl sequence,by rw [whole,bracket,split]⟩
    split at passed
    next brace =>
      cases nested with
      | none => simp [stopAt] at passed
      | some reads =>
        obtain ⟨⟨map,_⟩,read,passed⟩ := bind_eq_ok.mp passed
        obtain ⟨rfl,rfl⟩ := Prod.mk.inj (Except.ok.inj passed)
        obtain ⟨v,list,object,split,rfl⟩ := (object_iff reads _ _ _).mp read
        exact ⟨v,blanks,.object rfl object,by rw [whole,brace,split]⟩
    next => simp [stopAt] at passed

theorem element_complete {inner : Option (Bytes → Except Stop (Json × Bytes))}
    {denotes : Option (Bytes → Json → Prop)} (nested : Option.Rel Reads inner denotes)
    (values : ∀ value, denotes = some value → ∀ v a, value v a → Written .value v) :
    Completes (element inner) (Element denotes) := by
  intro before v a rest blanks written delimited
  rw [element_append blanks]
  cases written with
  | null =>
    exact element_word 'n' (word "ull") fun t => by
      rw [element,skipBlanks_cons (by decide)]
      rfl
  | true =>
    exact element_word 't' (word "rue") fun t => by
      rw [element,skipBlanks_cons (by decide)]
      rfl
  | false =>
    exact element_word 'f' (word "alse") fun t => by
      rw [element,skipBlanks_cons (by decide)]
      rfl
  | positive reads =>
    obtain ⟨form,place⟩ := number_place reads
    obtain ⟨b,t,rfl,digit⟩ := Skip.magnitude_head form
    have passed := place rest delimited
    rw [List.cons_append] at passed ⊢
    rw [element_digit inner digit,passed]
    rfl
  | negative reads =>
    rw [List.cons_append,element_negative,(number_place reads).2 rest delimited]
    rfl
  | @text s content spelled =>
    have passed : string (s ++ ascii '"' :: rest) = .ok (content,rest) :=
      (string_iff _ _ _).mpr ⟨s,rfl,spelled⟩
    rw [List.cons_append,List.append_assoc,List.cons_append,List.nil_append,element_text,passed]
    rfl
  | @array _ _ list same sequence =>
    subst same
    cases nested with
    | some reads =>
      obtain ⟨t,shape⟩ : ∃ t, v = ascii '[' :: t := by cases sequence <;> exact ⟨_,rfl⟩
      have passed := (array_iff (headed_of_written (values _ rfl)) reads (t ++ rest) list rest).mpr
        ⟨v,sequence,by rw [shape,List.cons_append]⟩
      rw [shape,List.cons_append,element_array,passed]
      rfl
  | @object _ _ list same object =>
    subst same
    cases nested with
    | some reads =>
      obtain ⟨t,shape⟩ : ∃ t, v = ascii '{' :: t := by cases object <;> exact ⟨_,rfl⟩
      have passed := (object_iff reads (t ++ rest) _ rest).mpr
        ⟨v,list,object,by rw [shape,List.cons_append],rfl⟩
      rw [shape,List.cons_append,element_object,passed]
      rfl

theorem reads_element {inner : Option (Bytes → Except Stop (Json × Bytes))}
    {denotes : Option (Bytes → Json → Prop)} (nested : Option.Rel Reads inner denotes)
    (values : ∀ value, denotes = some value → ∀ v a, value v a → Written .value v) :
    Reads (element inner) (Element denotes) :=
  ⟨fun _ _ _ => element_sound nested values,element_complete nested values⟩

/-- Reading to a depth gives what a text means that is nested no deeper, and nothing else. -/
theorem reads_value (depth : Nat) : Reads (value depth) (Means depth) := by
  induction depth with
  | zero => exact reads_element .none fun _ impossible => by cases impossible
  | succ depth ih =>
    refine reads_element (.some ih) fun value nested v a given => ?_
    obtain rfl := Option.some.inj nested
    exact means_written given

end Read

theorem means_object_iff {depth : Nat} {text : Bytes} {map : SortedMap Json} :
    Means (depth + 1) text (.object map.entries) ↔
      ∃ list, Object (Means depth) text list ∧ map = .ofList list := by
  constructor
  · intro means
    generalize same : Json.object map.entries = v at means
    cases means with
    | object nested object =>
      obtain rfl := Option.some.inj nested
      exact ⟨_,object,SortedMap.ext_entries (Json.object.inj same)⟩
    | _ => contradiction
  · rintro ⟨list,object,rfl⟩
    exact .object rfl object

theorem map_read_iff (depth : Nat) (s : Bytes) (map : SortedMap Json) (rest : Bytes) :
    (Codec.map .json).read (depth + 1) s = .ok (map,rest) ↔ ∃ before text list, Blanks before ∧
      Object (Means depth) text list ∧ s = before ++ (text ++ rest) ∧ map = .ofList list :=
  braced_iff (reads_value depth) "a map" s map rest

/-- A document gives what the one text in it means. -/
theorem parse_iff (document : Bytes) (v : Json) : parse document = .ok v ↔ ∃ before text after,
    Blanks before ∧ Means Read.depth text v ∧ Blanks after ∧ document = before ++ (text ++ after) := by
  have reads := reads_value Read.depth
  rw [parse,document_iff]
  constructor
  · rintro ⟨rest,passed,after⟩
    obtain ⟨before,text,first,means,rfl⟩ := reads.sound _ _ _ passed
    exact ⟨before,text,rest,first,means,after,rfl⟩
  · rintro ⟨before,text,after,first,means,last,rfl⟩
    exact ⟨after,reads.complete _ _ _ _ first means (delimited_blanks last),last⟩

theorem parse_means {depth : Nat} (bound : depth ≤ Read.depth) {text : Bytes} {v : Json}
    (means : Means depth text v) : parse text = .ok v :=
  (parse_iff _ _).mpr ⟨[],text,[],blanks_nil,means_mono bound means,blanks_nil,by simp⟩

theorem parse_blanks {document before after : Bytes} {v : Json} (reads : parse document = .ok v)
    (first : Blanks before) (second : Blanks after) :
    parse (before ++ (document ++ after)) = .ok v := by
  obtain ⟨lead,text,rear,blanks,means,last,rfl⟩ := (parse_iff _ _).mp reads
  exact (parse_iff _ _).mpr ⟨before ++ lead,text,rear ++ after,blanks_append first blanks,means,
    blanks_append last second,by simp only [List.append_assoc]⟩

/-- A document is read as a map just when it is read as an object. -/
theorem parse_map_iff (document : Bytes) (map : SortedMap Json) :
    (Codec.map .json).parse document = .ok map ↔ parse document = .ok (.object map.entries) := by
  rw [parse_iff,Codec.parse,document_iff]
  constructor
  · rintro ⟨rest,passed,after⟩
    obtain ⟨before,text,list,first,object,rfl,rfl⟩ := (map_read_iff 126 _ _ _).mp passed
    exact ⟨before,text,rest,first,means_object_iff.mpr ⟨list,object,rfl⟩,after,rfl⟩
  · rintro ⟨before,text,after,first,means,last,rfl⟩
    obtain ⟨list,object,rfl⟩ := means_object_iff.mp means
    exact ⟨after,(map_read_iff 126 _ _ _).mpr ⟨before,text,list,first,object,rfl,rfl⟩,last⟩

/-- From one place on, blanks and a text mean one value and take up the same. -/
theorem means_place {depth deeper : Nat} {before text rest gap other left : Bytes} {v w : Json}
    (first : Blanks before) (means : Means depth text v) (delimited : Delimited rest)
    (second : Blanks gap) (again : Means deeper other w) (ends : Delimited left)
    (same : before ++ (text ++ rest) = gap ++ (other ++ left)) : v = w ∧ rest = left := by
  have reads := (reads_value (max depth deeper)).complete
  have one := reads before text v rest first (means_mono (le_max_left _ _) means) delimited
  have two := reads gap other w left second (means_mono (le_max_right _ _) again) ends
  rw [same] at one
  exact Prod.mk.inj (Except.ok.inj (one.symm.trans two))

/-- A document that stands after blanks is taken up there as what it is read as on its own. -/
theorem parse_place {depth : Nat} {document rest gap text left : Bytes} {before : Bytes} {v w : Json}
    (reads : parse document = .ok v) (first : Blanks before) (delimited : Delimited rest)
    (second : Blanks gap) (means : Means depth text w) (ends : Delimited left)
    (same : before ++ (document ++ rest) = gap ++ (text ++ left)) : v = w := by
  obtain ⟨lead,inside,after,blanks,given,last,rfl⟩ := (parse_iff _ _).mp reads
  refine (means_place (blanks_append first blanks) given (delimited_blanks_append last delimited)
    second means ends ?_).1
  simpa only [List.append_assoc] using same

/-- A text means one value. -/
theorem means_unique {depth deeper : Nat} {text : Bytes} {v w : Json} (first : Means depth text v)
    (second : Means deeper text w) : v = w :=
  (means_place blanks_nil first (show Delimited [] from trivial) blanks_nil second
    (show Delimited [] from trivial) rfl).1

end NodeAudit.Json
