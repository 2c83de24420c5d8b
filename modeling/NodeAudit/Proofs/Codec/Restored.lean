import NodeAudit.Proofs.Codec.Record
import NodeAudit.Proofs.Instant
import NodeAudit.Proofs.Json.Spelled

/-! Writing and reading back. What a codec read, from text or from a value, is read again from what
it is written as: lists and maps are as soon as what they contain is. -/
namespace NodeAudit
open Json Json.Read

namespace Json.Read
variable {α σ : Type}

theorem atByte_append {read : UInt8 → Bytes → Except Stop (α × Bytes)} {before : Bytes}
    (blanks : Blanks before) {b : UInt8} (ink : blank b = false) (t : Bytes) :
    Codec.atByte read (before ++ b :: t) = read b t := by
  rw [Codec.atByte,skipBlanks_append blanks,skipBlanks_cons ink]

theorem word_complete (a : α) (expected rest : Bytes) :
    (do return (a,← literal expected (expected ++ rest))) = Except.ok (a,rest) := by
  rw [(literal_iff _ _ _).mpr rfl]
  rfl

theorem items_each {item : Bytes → Except Stop (α × Bytes)} {fuel : Nat} {first : Bool}
    {s rest : Bytes} {list : List α} (passed : items item fuel first s = .ok (list,rest)) :
    ∀ a ∈ list, ∃ t left, item t = .ok (a,left) := by
  induction fuel generalizing first s rest list with
  | zero => simp [items,stopAt] at passed
  | succ fuel ih =>
    obtain ⟨⟨found,left⟩,-,passed⟩ := bind_eq_ok.mp passed
    cases found with
    | false =>
      obtain ⟨rfl,-⟩ := Prod.mk.inj (Except.ok.inj passed)
      exact List.forall_mem_nil _
    | true =>
      obtain ⟨⟨a,after⟩,one,passed⟩ := bind_eq_ok.mp passed
      obtain ⟨⟨others,_⟩,later,passed⟩ := bind_eq_ok.mp passed
      obtain ⟨rfl,-⟩ := Prod.mk.inj (Except.ok.inj passed)
      exact List.forall_mem_cons.mpr ⟨⟨_,_,one⟩,ih later⟩

theorem array_each {item : Bytes → Except Stop (α × Bytes)} {s rest : Bytes} {list : List α}
    (passed : array item s = .ok (list,rest)) : ∀ a ∈ list, ∃ t left, item t = .ok (a,left) := by
  obtain ⟨⟨found,_⟩,inside,passed⟩ := bind_eq_ok.mp passed
  obtain ⟨_,-,passed⟩ := bind_eq_ok.mp passed
  obtain ⟨rfl,-⟩ := Prod.mk.inj (Except.ok.inj passed)
  exact items_each inside

end Json.Read

namespace Codec
variable {α : Type} {codec : Codec α} {depth : Nat}

/-- What a codec may give from a text or a value that is nested at most as deep as the number
tells. -/
def Made (codec : Codec α) (depth : Nat) (a : α) : Prop :=
  (∃ s rest, codec.read depth s = .ok (a,rest)) ∨ ∃ v, Readable depth v ∧ codec.ofJson v = .ok a

/-- A codec gives something back from the value and from each text that it is written as. -/
structure Restores (codec : Codec α) (depth : Nat) (a : α) : Prop where
  value : codec.ofJson (codec.toJson a) = .ok a
  steady : Steady depth (codec.toJson a)
  text : ∀ before text rest, Blanks before → Spelled text (codec.toJson a) → Delimited rest →
    codec.read depth (before ++ (text ++ rest)) = .ok (a,rest)

/-- A string is read from behind its opening quote. -/
theorem spelled_text {text : Bytes} {content : String} (spelled : Spelled text (.text content)) :
    ∃ body, text = ascii '"' :: (body ++ [ascii '"']) ∧
      ∀ rest, Read.string (body ++ ascii '"' :: rest) = .ok (content,rest) := by
  cases spelled
  exact ⟨_,rfl,fun rest => (string_iff _ _ _).mpr ⟨_,rfl,spells_text content⟩⟩

theorem string_restores (depth : Nat) (content : String) : string.Restores depth content := by
  refine ⟨rfl,steady_text depth content,fun before text rest blanks spelled delimited => ?_⟩
  obtain ⟨body,rfl,reads⟩ := spelled_text spelled
  rw [List.cons_append,List.append_assoc]
  exact (atByte_append blanks (by decide) _).trans (reads rest)

theorem boolean_restores (depth : Nat) (value : Bool) : boolean.Restores depth value := by
  refine ⟨rfl,steady_of_whole .boolean (List.forall_mem_nil _),?_⟩
  intro before text rest blanks spelled delimited
  cases spelled
  cases value with
  | true => exact (atByte_append blanks (by decide) _).trans (word_complete true (word "rue") rest)
  | false =>
    exact (atByte_append blanks (by decide) _).trans (word_complete false (word "alse") rest)

theorem whole_restores {expected : String} {ofInt? : Int → Option α} {toNumber : α → Number} {a : α}
    {i : Int} {bounded : -9223372036854775808 ≤ i ∧ i < 18446744073709551616}
    (written : toNumber a = .whole i bounded) (back : ofInt? i = some a) (depth : Nat) :
    (whole expected ofInt? toNumber).Restores depth a := by
  have judged : judge expected ofInt? (toNumber a) = .ok a := by
    rw [written,judge]
    simp only [back]
  have steady (depth : Nat) : Steady depth (.number (toNumber a)) :=
    steady_of_whole .number fun x given =>
      ⟨i,bounded,(List.mem_singleton.mp given).trans written⟩
  refine ⟨judged,steady depth,fun before text rest blanks spelled delimited => ?_⟩
  -- What the text means tells the form it has, without a look at how numbers are written.
  have means : Means 0 text (.number (toNumber a)) := steady 0 text spelled
  cases means with
  | positive reads =>
    obtain ⟨form,place⟩ := number_place reads
    obtain ⟨b,t,rfl,digit⟩ := Skip.magnitude_head form
    obtain ⟨ink,other⟩ := Skip.digit_plain digit
    refine (atByte_append blanks ink _).trans ?_
    have passed := place rest delimited
    rw [List.cons_append] at passed
    simp only [digit,or_true,if_true,other _ (show (digit? (ascii '-')).isSome = false by decide),
      if_false,List.append_eq,passed,bind,Except.bind,judged]
    rfl
  | negative reads =>
    refine (atByte_append blanks (by decide) _).trans ?_
    simp only [true_or,if_true,List.append_eq,(number_place reads).2 rest delimited,bind,Except.bind,
      judged]
    rfl

theorem int32_restores (depth : Nat) (i : Int32) : int32.Restores depth i := by
  have low := i.le_toInt
  have high := i.toInt_lt
  refine whole_restores rfl ?_ depth
  rw [if_pos (by omega),Int32.ofInt_toInt]

theorem int64_restores (depth : Nat) (i : Int64) : int64.Restores depth i := by
  have low := i.le_toInt
  have high := i.toInt_lt
  refine whole_restores rfl ?_ depth
  rw [if_pos (by omega),Int64.ofInt_toInt]

theorem json_made {v : Json} (made : json.Made depth v) : Readable depth v := by
  obtain ⟨s,rest,read⟩ | ⟨w,readable,same⟩ := made
  · exact Read.readable_value read
  · exact Except.ok.inj same ▸ readable

theorem json_restores {v : Json} (readable : Readable depth v) (whole : v.Integral) :
    json.Restores depth v := by
  have steady := steady_of_whole readable whole
  refine ⟨rfl,steady,fun before text rest blanks spelled delimited => ?_⟩
  exact (reads_value depth).complete _ _ _ _ blanks (steady text spelled) delimited

theorem judgeTime_ok {text : String} {t : Instant} (passed : judgeTime text = .ok t) :
    Instant.read text = .ok t := by
  rw [judgeTime] at passed
  cases found : Instant.read text with
  | error problem =>
    rw [found] at passed
    contradiction
  | ok time =>
    rw [found] at passed
    exact congrArg Except.ok (Except.ok.inj passed)

theorem instant_made {t : Instant} (made : instant.Made depth t) :
    t.Dated ∧ Instant.inCalendar t.year = true := by
  obtain ⟨s,rest,read⟩ | ⟨v,-,given⟩ := made
  · obtain ⟨b,u,-,read⟩ := atByte_ok read
    split at read
    next =>
      obtain ⟨⟨text,left⟩,-,judged⟩ := bind_eq_ok.mp read
      simp only at judged
      split at judged
      next time passed =>
        obtain ⟨rfl,-⟩ := Prod.mk.inj (Except.ok.inj judged)
        exact Instant.read_dated (judgeTime_ok passed)
      next => contradiction
    next => exact absurd read (mismatch_error _ _ _)
  · cases v with
    | text text => exact Instant.read_dated (judgeTime_ok given)
    | _ => contradiction

theorem instant_ofJson (text : String) : instant.ofJson (.text text) = judgeTime text := rfl

theorem instant_restores {t : Instant} (dated : t.Dated) (year : Instant.inCalendar t.year = true)
    (seconds : t.nanosecond = 0) : instant.Restores depth t := by
  have judged : judgeTime t.text = .ok t := by
    rw [judgeTime,Instant.read_text dated year seconds]
    rfl
  refine ⟨(instant_ofJson t.text).trans judged,steady_text depth t.text,?_⟩
  intro before text rest blanks spelled delimited
  obtain ⟨body,rfl,reads⟩ := spelled_text spelled
  rw [List.cons_append,List.append_assoc]
  refine (atByte_append blanks (by decide) _).trans ?_
  show (Read.string (body ++ ascii '"' :: rest) >>= _) = _
  rw [reads]
  simp only [bind,Except.bind,judged]
  rfl

theorem optional_ofJson (codec : Codec α) {v : Json} (given : v ≠ .null) :
    codec.optional.ofJson v = some <$> codec.ofJson v := by
  cases v with
  | null => contradiction
  | _ => rfl

theorem optional_value {v : Json} {a : α} (passed : codec.optional.ofJson v = .ok (some a)) :
    v ≠ .null ∧ codec.ofJson v = .ok a := by
  have given : v ≠ .null := by
    rintro rfl
    cases passed
  rw [optional_ofJson codec given,map_eq_ok] at passed
  obtain ⟨b,found,same⟩ := passed
  exact ⟨given,Option.some.inj same ▸ found⟩

theorem optional_none_restores (codec : Codec α) (depth : Nat) :
    codec.optional.Restores depth none := by
  refine ⟨rfl,steady_of_whole .null (List.forall_mem_nil _),?_⟩
  intro before text rest blanks spelled delimited
  cases spelled
  have start : skipBlanks (before ++ (word "null" ++ rest)) = ascii 'n' :: (word "ull" ++ rest) :=
    (skipBlanks_append blanks _).trans (skipBlanks_cons (by decide) _)
  simp only [optional,start,if_true]
  exact word_complete none (word "ull") rest

theorem optional_some_restores {a : α} (restores : codec.Restores depth a)
    (solid : codec.toJson a ≠ .null) : codec.optional.Restores depth (some a) := by
  refine ⟨?_,restores.steady,fun before text rest blanks spelled delimited => ?_⟩
  · exact (optional_ofJson codec solid).trans (by rw [restores.value]; rfl)
  · obtain ⟨b,t,rfl,ink,other⟩ := spelled.head solid
    have start : skipBlanks (before ++ (b :: t ++ rest)) = b :: (t ++ rest) :=
      (skipBlanks_append blanks _).trans (skipBlanks_cons ink _)
    have alone := restores.text [] (b :: t) rest blanks_nil spelled delimited
    rw [List.nil_append,List.cons_append] at alone
    simp only [optional,start,if_neg other,alone]
    rfl

theorem optional_none_made (codec : Codec α) (depth : Nat) : codec.optional.Made depth none :=
  .inr ⟨.null,.null,rfl⟩

theorem optional_made {a : α} (made : codec.optional.Made depth (some a)) : codec.Made depth a := by
  obtain ⟨s,rest,read⟩ | ⟨v,readable,given⟩ := made
  · obtain ⟨impossible,-⟩ | ⟨a,same,read⟩ := optional_ok read
    · contradiction
    · obtain rfl := Option.some.inj same
      exact .inl ⟨_,_,read⟩
  · exact .inr ⟨v,readable,(optional_value given).2⟩

theorem optional_restores {o : Option α}
    (each : ∀ a ∈ o, codec.Restores depth a ∧ codec.toJson a ≠ .null) :
    codec.optional.Restores depth o := by
  cases o with
  | none => exact optional_none_restores codec depth
  | some a => exact optional_some_restores (each a rfl).1 (each a rfl).2

theorem optional_some_start {s t rest : Bytes} {a : α}
    (passed : codec.optional.read depth s = .ok (some a,rest)) : skipBlanks s ≠ ascii 'n' :: t := by
  intro start
  simp only [optional,start,if_true] at passed
  obtain ⟨impossible,-⟩ := word_ok passed
  contradiction

theorem json_optional_made {v : Json} (made : json.optional.Made depth (some v)) : v ≠ .null := by
  rintro rfl
  obtain ⟨s,rest,passed⟩ | ⟨w,-,given⟩ := made
  · obtain ⟨impossible,-⟩ | ⟨a,same,read⟩ := optional_ok passed
    · contradiction
    · obtain rfl := Option.some.inj same
      obtain ⟨before,blanks,whole⟩ := skipBlanks_split s
      obtain ⟨gap,text,gaps,means,split⟩ := (reads_value depth).sound _ _ _ read
      -- Only the word is null, and where its first letter stands nothing else is tried.
      have null : text = word "null" := by cases depth <;> cases means <;> rfl
      refine optional_some_start passed (t := word "ull" ++ rest) ?_
      rw [whole,skipBlanks_append blanks,split,null,skipBlanks_append gaps]
      exact skipBlanks_cons (by decide) _
  · obtain ⟨given,same⟩ := optional_value given
    exact given (Except.ok.inj same)

theorem mapM_restores {list : List α} (each : ∀ a ∈ list, codec.Restores depth a) :
    (list.map codec.toJson).mapM codec.ofJson = .ok list := by
  induction list with
  | nil => rfl
  | cons a list ih =>
    obtain ⟨one,others⟩ := List.forall_mem_cons.mp each
    rw [List.map_cons,List.mapM_cons,one.value,ih others]
    rfl

theorem mapM_each {vs : List Json} {list : List α} (passed : vs.mapM codec.ofJson = .ok list) :
    ∀ a ∈ list, ∃ v ∈ vs, codec.ofJson v = .ok a := by
  induction vs generalizing list with
  | nil =>
    obtain rfl := Except.ok.inj passed
    exact List.forall_mem_nil _
  | cons v vs ih =>
    rw [List.mapM_cons] at passed
    obtain ⟨a,one,passed⟩ := bind_eq_ok.mp passed
    obtain ⟨others,later,passed⟩ := bind_eq_ok.mp passed
    obtain rfl := Except.ok.inj passed
    refine List.forall_mem_cons.mpr ⟨⟨v,List.mem_cons_self,one⟩,fun b member => ?_⟩
    obtain ⟨w,inside,given⟩ := ih later b member
    exact ⟨w,List.mem_cons_of_mem _ inside,given⟩

theorem list_made {items : List α} (made : codec.list.Made (depth + 1) items) :
    ∀ a ∈ items, codec.Made depth a := by
  obtain ⟨s,rest,read⟩ | ⟨v,readable,given⟩ := made
  · obtain ⟨b,t,-,read⟩ := atByte_ok read
    split at read
    next =>
      obtain ⟨inner,level,read⟩ := within_ok read
      obtain rfl := Nat.succ.inj level
      exact fun a member => .inl (array_each read a member)
    next => exact absurd read (mismatch_error _ _ _)
  · cases readable with
    | array inside =>
      intro a member
      obtain ⟨v,listed,given⟩ := mapM_each given a member
      exact .inr ⟨v,inside v listed,given⟩
    | _ => contradiction

/-- A text of something that is given back. -/
def Rewritten (codec : Codec α) (depth : Nat) (text : Bytes) (a : α) : Prop :=
  Spelled text (codec.toJson a) ∧ codec.Restores depth a

theorem rewritten_headed (codec : Codec α) (depth : Nat) : Headed (codec.Rewritten depth) :=
  fun _ _ rewritten => Skip.value_head rewritten.1.written

theorem rewritten_complete (codec : Codec α) (depth : Nat) :
    Completes (codec.read depth) (codec.Rewritten depth) :=
  fun before text _ rest blanks rewritten delimited =>
    rewritten.2.text before text rest blanks rewritten.1 delimited

theorem list_restores {items : List α} (each : ∀ a ∈ items, codec.Restores depth a) :
    codec.list.Restores (depth + 1) items := by
  refine ⟨mapM_restores each,?_,fun before text rest blanks spelled delimited => ?_⟩
  · exact steady_array (List.forall_mem_map.mpr fun a member => (each a member).steady)
  obtain ⟨parts,written,rfl⟩ := spelled.of_array
  have rewritten := forall₂_of_mem (List.forall₂_map_right_iff.mp written)
    fun a member _ spelled => (⟨spelled,each a member⟩ : codec.Rewritten depth _ a)
  refine (atByte_append blanks (by decide) _).trans ?_
  exact array_complete (rewritten_headed codec depth) (rewritten_complete codec depth)
    (sequence_compact rewritten) rfl

theorem foldlM_members_restores {list : List (String × α)}
    (each : ∀ entry ∈ list, codec.Restores depth entry.2) (start : SortedMap α) :
    (list.map fun entry => (entry.1,codec.toJson entry.2)).foldlM
      (fun map member => return map.insert member.1 (← codec.ofJson member.2)) start =
      .ok (fill start list) := by
  induction list generalizing start with
  | nil => rfl
  | cons entry list ih =>
    obtain ⟨one,others⟩ := List.forall_mem_cons.mp each
    rw [List.map_cons,List.foldlM_cons,one.value]
    exact ih others _

theorem map_restores {map : SortedMap α}
    (each : ∀ entry ∈ map.entries, codec.Restores depth entry.2) :
    codec.map.Restores (depth + 1) map := by
  refine ⟨?_,?_,fun before text rest blanks spelled delimited => ?_⟩
  · exact (foldlM_members_restores each _).trans (congrArg Except.ok (SortedMap.ofList_entries map))
  · exact @steady_object _ (map.relabel fun entry => codec.toJson entry.2)
      (List.forall_mem_map.mpr fun entry member => (each entry member).steady)
  obtain ⟨members,entries,order,written,rfl⟩ := spelled.of_object
  obtain ⟨list,rfl,listed⟩ := Eq.mpr (congrFun₂ (List.eq_map_comp_perm _) _ _) order
  have rewritten := forall₂_of_mem (List.forall₂_map_right_iff.mp written)
    fun entry member _ pair => (⟨pair.1,pair.2,each entry (listed.subset member)⟩ :
      Pair (codec.Rewritten depth) _ entry)
  rw [← SortedMap.ofList_perm listed]
  refine (atByte_append blanks (by decide) _).trans ?_
  exact object_complete (rewritten_complete codec depth) (object_compact rewritten) rfl

end Codec
end NodeAudit
