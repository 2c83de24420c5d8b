import NodeAudit.Proofs.Json.Skip

/-! Passing over values that nest. The scanner goes down one level for each bracket, and the text
is long enough to bound how often it can. -/
namespace NodeAudit.Json.Skip
open Read

/-- A text up to and including a closing bracket, and what follows. -/
inductive Closes (category : Category) (close : UInt8) (first : Bool) : Bytes → Bytes → Prop where
  | here {before rest : Bytes} (blanks : Blanks before) :
      Closes category close first (before ++ close :: rest) rest
  | after {lead inside rest : Bytes} (leads : Lead first lead) (written : Written category inside) :
      Closes category close first (lead ++ (inside ++ close :: rest)) rest

theorem Closes.first {category : Category} {close : UInt8} {inside rest : Bytes}
    (written : Written category inside) :
    Closes category close true (inside ++ close :: rest) rest :=
  List.nil_append (inside ++ close :: rest) ▸ Closes.after .start written

theorem Closes.next {category : Category} {close : UInt8} {before inside rest : Bytes}
    (blanks : Blanks before) (written : Written category inside) :
    Closes category close false (before ++ ascii ',' :: (inside ++ close :: rest)) rest := by
  rw [List.append_cons]
  exact .after (.comma blanks) written

/-- A scanner that passes over nothing but values. -/
def Sound (scan : Bytes → Except Stop Bytes) : Prop :=
  ∀ s rest, scan s = .ok rest →
    ∃ before v, Blanks before ∧ Written .value v ∧ s = before ++ (v ++ rest)

theorem item_closes {before v s rest : Bytes} (first : Blanks before) (value : Written .value v)
    (closes : Closes .items (ascii ']') false s rest) :
    ∃ inside, Written .items inside ∧ before ++ (v ++ s) = inside ++ ascii ']' :: rest := by
  rcases closes with ⟨blanks⟩ | ⟨leads,written⟩
  · exact ⟨_,.lastItem first value blanks,by simp⟩
  · cases leads with
    | comma blanks => exact ⟨_,.nextItem first value blanks written,by simp⟩

theorem items_sound {item : Bytes → Except Stop Bytes} (sound : Sound item) {fuel : Nat}
    {first : Bool} {s rest : Bytes} (passed : items item fuel first s = .ok rest) :
    Closes .items (ascii ']') first s rest := by
  induction fuel generalizing first s with
  | zero => simp [items,stopAt] at passed
  | succ fuel ih =>
    obtain ⟨before,blanks,whole⟩ := skipBlanks_split s
    rw [items] at passed
    split at passed
    next => simp [stopAt] at passed
    next b t left =>
      rw [left] at whole
      split at passed
      next close =>
        rw [whole,close,← Except.ok.inj passed]
        exact .here blanks
      next =>
        split at passed
        next start =>
          obtain ⟨r,one,others⟩ := bind_eq_ok.mp passed
          obtain ⟨more,v,white,value,split⟩ := sound _ _ one
          obtain ⟨inside,written,equal⟩ :=
            item_closes (blanks_append blanks white) value (ih others)
          rw [whole,split,← List.append_assoc,equal,start]
          exact .first written
        next start =>
          split at passed
          next comma =>
            obtain ⟨r,one,others⟩ := bind_eq_ok.mp passed
            obtain ⟨more,v,white,value,split⟩ := sound _ _ one
            obtain ⟨inside,written,equal⟩ := item_closes white value (ih others)
            rw [whole,split,equal,comma,Bool.eq_false_iff.mpr start]
            exact .next blanks written
          next => simp [stopAt] at passed

/-- A scanner that passes over nothing but a name, its colon and its value. -/
def MemberSound (scan : Bytes → Except Stop Bytes) : Prop :=
  ∀ s rest, scan s = .ok rest → ∃ before name middle gap v, Blanks before ∧ Body name ∧
    Blanks middle ∧ Blanks gap ∧ Written .value v ∧ s = before ++ ascii '"' ::
      (name ++ ascii '"' :: (middle ++ ascii ':' :: (gap ++ (v ++ rest))))

theorem member_sound {value : Bytes → Except Stop Bytes} (sound : Sound value) :
    MemberSound (member value) := by
  intro s rest passed
  obtain ⟨before,blanks,whole⟩ := skipBlanks_split s
  rw [member] at passed
  split at passed
  next => simp [stopAt] at passed
  next b t left =>
    rw [left] at whole
    split at passed
    next quote =>
      obtain ⟨r,name,others⟩ := bind_eq_ok.mp passed
      obtain ⟨body,rfl,inside⟩ := string_sound name
      obtain ⟨middle,white,split⟩ := skipBlanks_split r
      split at others
      next => simp [stopAt] at others
      next c u after =>
        rw [after] at split
        split at others
        next colon =>
          obtain ⟨gap,v,gaps,written,equal⟩ := sound _ _ others
          refine ⟨before,body,middle,gap,v,blanks,inside,white,gaps,written,?_⟩
          rw [whole,quote,split,colon,equal]
        next => simp [stopAt] at others
    next => simp [stopAt] at passed

theorem member_closes {before name middle gap v s rest : Bytes} (first : Blanks before)
    (body : Body name) (second : Blanks middle) (third : Blanks gap) (value : Written .value v)
    (closes : Closes .members (ascii '}') false s rest) :
    ∃ inside, Written .members inside ∧
      before ++ ascii '"' :: (name ++ ascii '"' :: (middle ++ ascii ':' :: (gap ++ (v ++ s)))) =
        inside ++ ascii '}' :: rest := by
  rcases closes with ⟨blanks⟩ | ⟨leads,written⟩
  · exact ⟨_,.lastMember first body second third value blanks,by simp⟩
  · cases leads with
    | comma blanks => exact ⟨_,.nextMember first body second third value blanks written,by simp⟩

theorem members_sound {value : Bytes → Except Stop Bytes} (sound : Sound value) {fuel : Nat}
    {first : Bool} {s rest : Bytes} (passed : members value fuel first s = .ok rest) :
    Closes .members (ascii '}') first s rest := by
  induction fuel generalizing first s with
  | zero => simp [members,stopAt] at passed
  | succ fuel ih =>
    obtain ⟨before,blanks,whole⟩ := skipBlanks_split s
    rw [members] at passed
    split at passed
    next => simp [stopAt] at passed
    next b t left =>
      rw [left] at whole
      split at passed
      next close =>
        rw [whole,close,← Except.ok.inj passed]
        exact .here blanks
      next =>
        split at passed
        next start =>
          obtain ⟨r,one,others⟩ := bind_eq_ok.mp passed
          obtain ⟨more,name,middle,gap,v,white,body,second,third,value,split⟩ :=
            member_sound sound _ _ one
          obtain ⟨inside,written,equal⟩ :=
            member_closes (blanks_append blanks white) body second third value (ih others)
          rw [whole,split,← List.append_assoc,equal,start]
          exact .first written
        next start =>
          split at passed
          next comma =>
            obtain ⟨r,one,others⟩ := bind_eq_ok.mp passed
            obtain ⟨more,name,middle,gap,v,white,body,second,third,value,split⟩ :=
              member_sound sound _ _ one
            obtain ⟨inside,written,equal⟩ :=
              member_closes white body second third value (ih others)
            rw [whole,split,equal,comma,Bool.eq_false_iff.mpr start]
            exact .next blanks written
          next => simp [stopAt] at passed

theorem element_sound {inner : Bytes → Except Stop Bytes} (sound : Sound inner) :
    Sound (element inner) := by
  intro s rest passed
  obtain ⟨before,blanks,whole⟩ := skipBlanks_split s
  rw [element] at passed
  split at passed
  next => simp [stopAt] at passed
  next b t left =>
    rw [left] at whole
    suffices value : ∃ v, Written .value v ∧ b :: t = v ++ rest by
      obtain ⟨v,written,equal⟩ := value
      exact ⟨before,v,blanks,written,by rw [whole,equal]⟩
    split at passed
    next start => exact ⟨_,.null,by rw [start,(literal_iff _ _ _).mp passed]; rfl⟩
    split at passed
    next start => exact ⟨_,.true,by rw [start,(literal_iff _ _ _).mp passed]; rfl⟩
    split at passed
    next start => exact ⟨_,.false,by rw [start,(literal_iff _ _ _).mp passed]; rfl⟩
    split at passed
    next start =>
      obtain ⟨v,rfl,number⟩ := number_sound passed
      exact ⟨_,.negative number,by rw [start]; rfl⟩
    split at passed
    next =>
      obtain ⟨v,equal,number⟩ := number_sound passed
      exact ⟨_,.positive number,equal⟩
    split at passed
    next start =>
      obtain ⟨body,rfl,inside⟩ := string_sound passed
      exact ⟨_,.text inside,by simp [start]⟩
    split at passed
    next start =>
      rcases items_sound sound passed with ⟨inside⟩ | ⟨⟨⟩,inside⟩
      · exact ⟨_,.emptyArray inside,by simp [start]⟩
      · exact ⟨_,.array inside,by simp [start]⟩
    split at passed
    next start =>
      rcases members_sound sound passed with ⟨inside⟩ | ⟨⟨⟩,inside⟩
      · exact ⟨_,.emptyObject inside,by simp [start]⟩
      · exact ⟨_,.object inside,by simp [start]⟩
    next => simp [stopAt] at passed

theorem nested_sound (depth : Nat) : Sound (nested depth) := by
  induction depth with
  | zero =>
    refine element_sound fun s rest impossible => ?_
    simp [stopAt] at impossible
  | succ depth ih => exact element_sound ih

theorem magnitude_head {s : Bytes} (number : Magnitude s) :
    ∃ b t, s = b :: t ∧ (digit? b).isSome = true := by
  obtain ⟨whole,_,_⟩ := number
  cases whole with
  | zero => exact ⟨_,_,rfl,by decide⟩
  | digits lead _ _ => exact ⟨_,_,rfl,lead⟩

theorem digit_plain {b : UInt8} (digit : (digit? b).isSome = true) :
    blank b = false ∧ ∀ c, (digit? c).isSome = false → b ≠ c := by
  constructor
  · rw [← Bool.not_eq_true]
    intro white
    simp only [blank,Bool.or_eq_true,beq_iff_eq] at white
    rcases white with ((rfl | rfl) | rfl) | rfl <;> exact absurd digit (by decide)
  · rintro c other rfl
    rw [digit] at other
    contradiction

theorem value_head {v : Bytes} (written : Written .value v) :
    ∃ b t, v = b :: t ∧ blank b = false ∧ b ≠ ascii ']' := by
  cases written with
  | null | true | false => exact ⟨_,_,rfl,by decide,by decide⟩
  | positive number =>
    obtain ⟨b,t,whole,digit⟩ := magnitude_head number
    exact ⟨b,t,whole,(digit_plain digit).1,(digit_plain digit).2 _ (by decide)⟩
  | negative | text | emptyArray | array | emptyObject | object =>
    exact ⟨_,_,rfl,by decide,by decide⟩

theorem value_length {v : Bytes} (written : Written .value v) : 0 < v.length := by
  obtain ⟨b,t,rfl,_⟩ := value_head written
  exact Nat.succ_pos _

theorem items_close {item : Bytes → Except Stop Bytes} {fuel : Nat} {first : Bool}
    {before : Bytes} (blanks : Blanks before) (rest : Bytes) :
    items item (fuel + 1) first (before ++ ascii ']' :: rest) = .ok rest := by
  rw [items,skipBlanks_append blanks,skipBlanks_cons (by decide)]
  simp only [if_pos]

theorem items_step {item : Bytes → Except Stop Bytes} {fuel : Nat} {first : Bool}
    {lead before v s : Bytes} (leads : Lead first lead) (blanks : Blanks before)
    (value : Written .value v)
    (passes : ∀ before, Blanks before → item (before ++ (v ++ s)) = .ok s) :
    items item (fuel + 1) first (lead ++ (before ++ (v ++ s))) = items item fuel false s := by
  cases leads with
  | start =>
    obtain ⟨b,t,rfl,ink,bracket⟩ := value_head value
    have one := passes [] blanks_nil
    rw [List.nil_append,List.cons_append] at one
    rw [items,List.nil_append,skipBlanks_append blanks,List.cons_append,skipBlanks_cons ink]
    simp only [if_neg bracket,if_pos,one]
    rfl
  | comma separator =>
    rw [items,List.append_assoc,skipBlanks_append separator,List.cons_append,
      skipBlanks_cons (by decide)]
    simp only [show ascii ',' ≠ ascii ']' by decide,Bool.false_eq_true,if_false,if_true,
      List.nil_append,passes before blanks]
    rfl

theorem member_complete {value : Bytes → Except Stop Bytes} {before name middle s rest : Bytes}
    (first : Blanks before) (body : Body name) (second : Blanks middle)
    (passes : value s = .ok rest) :
    member value (before ++ ascii '"' :: (name ++ ascii '"' :: (middle ++ ascii ':' :: s))) =
      .ok rest := by
  rw [member,skipBlanks_append first,skipBlanks_cons (by decide)]
  simp only [if_true,string_complete body,bind,Except.bind]
  rw [skipBlanks_append second,skipBlanks_cons (by decide)]
  simp only [if_true,passes]

theorem members_close {value : Bytes → Except Stop Bytes} {fuel : Nat} {first : Bool}
    {before : Bytes} (blanks : Blanks before) (rest : Bytes) :
    members value (fuel + 1) first (before ++ ascii '}' :: rest) = .ok rest := by
  rw [members,skipBlanks_append blanks,skipBlanks_cons (by decide)]
  simp only [if_pos]

theorem members_step {value : Bytes → Except Stop Bytes} {fuel : Nat} {first : Bool}
    {lead before name middle s rest : Bytes} (leads : Lead first lead) (blanks : Blanks before)
    (body : Body name) (second : Blanks middle) (passes : value s = .ok rest) :
    members value (fuel + 1) first (lead ++ (before ++ ascii '"' ::
        (name ++ ascii '"' :: (middle ++ ascii ':' :: s)))) =
      members value fuel false rest := by
  have one {before : Bytes} (blanks : Blanks before) :=
    @member_complete value _ _ _ _ _ blanks body second passes
  cases leads with
  | start =>
    have one := one blanks_nil
    rw [List.nil_append] at one
    rw [members,List.nil_append,skipBlanks_append blanks,skipBlanks_cons (by decide)]
    simp only [show ascii '"' ≠ ascii '}' by decide,if_false,if_true,one]
    rfl
  | comma separator =>
    rw [members,List.append_assoc,skipBlanks_append separator,List.cons_append,
      skipBlanks_cons (by decide)]
    simp only [show ascii ',' ≠ ascii '}' by decide,Bool.false_eq_true,if_false,if_true,
      List.nil_append,one blanks]
    rfl

/-- What it takes to pass over a text of each category. -/
def Passes : Category → Bytes → Prop
  | .value,v => ∀ depth before rest, v.length ≤ depth → Blanks before → Delimited rest →
    nested depth (before ++ (v ++ rest)) = .ok rest
  | .items,s => ∀ depth fuel first lead rest, s.length ≤ depth → s.length < fuel →
    Lead first lead → items (nested depth) fuel first (lead ++ (s ++ ascii ']' :: rest)) = .ok rest
  | .members,s => ∀ depth fuel first lead rest, s.length ≤ depth → s.length < fuel →
    Lead first lead →
      members (nested depth) fuel first (lead ++ (s ++ ascii '}' :: rest)) = .ok rest

theorem nested_succ {depth : Nat} {before : Bytes} (blanks : Blanks before) (s : Bytes) :
    nested (depth + 1) (before ++ s) = element (nested depth) s := by
  rw [nested,element,skipBlanks_append blanks,element]

theorem passes_word {text : String} {first : UInt8} {expected : Bytes}
    (spelled : word text = first :: expected)
    (reads : ∀ inner s, element inner (first :: s) = literal expected s) :
    Passes .value (word text) := by
  intro depth before rest bound blanks _
  rw [spelled] at bound ⊢
  obtain ⟨depth,rfl⟩ := Nat.exists_eq_add_one.mpr (Nat.lt_of_lt_of_le (Nat.succ_pos _) bound)
  rw [List.cons_append,nested_succ blanks,reads,literal_iff]

/-- What is opened by one byte and closed by another, one level deeper. -/
theorem passes_bracket {opening close : UInt8} {inside : Bytes}
    (reads : ∀ depth rest, inside.length ≤ depth →
      element (nested depth) (opening :: (inside ++ close :: rest)) = .ok rest) :
    Passes .value (opening :: (inside ++ [close])) := by
  intro depth before rest bound blanks _
  rw [List.length_cons,List.length_append] at bound
  obtain ⟨depth,rfl⟩ := Nat.exists_eq_add_one.mpr (Nat.lt_of_lt_of_le (Nat.succ_pos _) bound)
  rw [List.cons_append,List.append_assoc,nested_succ blanks]
  exact reads depth rest (by omega)

theorem element_array (inner : Bytes → Except Stop Bytes) (s : Bytes) :
    element inner (ascii '[' :: s) = items inner (s.length + 1) true s := by
  rw [element,skipBlanks_cons (by decide)]
  rfl

theorem element_object (inner : Bytes → Except Stop Bytes) (s : Bytes) :
    element inner (ascii '{' :: s) = members inner (s.length + 1) true s := by
  rw [element,skipBlanks_cons (by decide)]
  rfl

theorem element_text (inner : Bytes → Except Stop Bytes) (s : Bytes) :
    element inner (ascii '"' :: s) = string s := by
  rw [element,skipBlanks_cons (by decide)]
  rfl

theorem element_negative (inner : Bytes → Except Stop Bytes) (s : Bytes) :
    element inner (ascii '-' :: s) = number s := by
  rw [element,skipBlanks_cons (by decide)]
  rfl

theorem element_digit (inner : Bytes → Except Stop Bytes) {b : UInt8}
    (digit : (digit? b).isSome = true) (s : Bytes) :
    element inner (b :: s) = number (b :: s) := by
  obtain ⟨ink,other⟩ := digit_plain digit
  rw [element,skipBlanks_cons ink]
  simp only [other _ (show (digit? (ascii 'n')).isSome = false by decide),
    other _ (show (digit? (ascii 't')).isSome = false by decide),
    other _ (show (digit? (ascii 'f')).isSome = false by decide),
    other _ (show (digit? (ascii '-')).isSome = false by decide),digit,if_false,if_true]

theorem written_passes {category : Category} {s : Bytes} (written : Written category s) :
    Passes category s := by
  induction written with
  | null =>
    refine passes_word (show word "null" = ascii 'n' :: word "ull" by decide) fun _ _ => ?_
    rw [element,skipBlanks_cons (by decide)]
    rfl
  | true =>
    refine passes_word (show word "true" = ascii 't' :: word "rue" by decide) fun _ _ => ?_
    rw [element,skipBlanks_cons (by decide)]
    rfl
  | false =>
    refine passes_word (show word "false" = ascii 'f' :: word "alse" by decide) fun _ _ => ?_
    rw [element,skipBlanks_cons (by decide)]
    rfl
  | positive number =>
    intro depth before rest bound blanks delimited
    obtain ⟨b,t,rfl,digit⟩ := magnitude_head number
    obtain ⟨depth,rfl⟩ := Nat.exists_eq_add_one.mpr (Nat.lt_of_lt_of_le (Nat.succ_pos _) bound)
    rw [List.cons_append,nested_succ blanks,element_digit _ digit,
      ← List.cons_append]
    exact number_complete number delimited
  | negative number =>
    intro depth before rest bound blanks delimited
    obtain ⟨depth,rfl⟩ := Nat.exists_eq_add_one.mpr (Nat.lt_of_lt_of_le (Nat.succ_pos _) bound)
    rw [List.cons_append,nested_succ blanks,element_negative]
    exact number_complete number delimited
  | text body =>
    refine passes_bracket fun depth rest _ => ?_
    rw [element_text]
    exact string_complete body rest
  | emptyArray inside =>
    refine passes_bracket fun depth rest _ => ?_
    rw [element_array]
    exact items_close inside rest
  | array _ ih =>
    refine passes_bracket fun depth rest bound => ?_
    rw [element_array]
    exact ih depth _ true [] rest bound (by rw [List.length_append]; omega) .start
  | emptyObject inside =>
    refine passes_bracket fun depth rest _ => ?_
    rw [element_object]
    exact members_close inside rest
  | object _ ih =>
    refine passes_bracket fun depth rest bound => ?_
    rw [element_object]
    exact ih depth _ true [] rest bound (by rw [List.length_append]; omega) .start
  | @lastItem before v after first value second ih =>
    intro depth fuel start lead rest bound enough leads
    have given := value_length value
    simp only [List.length_append] at bound enough
    obtain ⟨fuel,rfl⟩ := Nat.exists_eq_add_of_le' (show 2 ≤ fuel by omega)
    have passes : ∀ before, Blanks before →
        nested depth (before ++ (v ++ (after ++ ascii ']' :: rest))) =
          .ok (after ++ ascii ']' :: rest) := fun before blanks =>
      ih depth before _ (by omega) blanks (delimited_append second (by simp) _)
    rw [List.append_assoc,List.append_assoc,items_step leads first value passes]
    exact items_close second rest
  | @nextItem before v after s first value second _ ih more =>
    intro depth fuel start lead rest bound enough leads
    have given := value_length value
    simp only [List.length_append,List.length_cons] at bound enough
    obtain ⟨fuel,rfl⟩ := Nat.exists_eq_add_of_le' (show 1 ≤ fuel by omega)
    have passes : ∀ before, Blanks before →
        nested depth (before ++ (v ++ (after ++ ascii ',' :: (s ++ ascii ']' :: rest)))) =
          .ok (after ++ ascii ',' :: (s ++ ascii ']' :: rest)) := fun before blanks =>
      ih depth before _ (by omega) blanks (delimited_append second (by simp) _)
    rw [List.append_assoc,List.append_assoc,List.append_assoc,List.cons_append,
      items_step leads first value passes,List.append_cons]
    exact more depth fuel false _ rest (by omega) (by omega) (.comma second)
  | @lastMember before name middle gap v after first body second third value fourth ih =>
    intro depth fuel start lead rest bound enough leads
    have given := value_length value
    simp only [List.length_append,List.length_cons] at bound enough
    obtain ⟨fuel,rfl⟩ := Nat.exists_eq_add_of_le' (show 2 ≤ fuel by omega)
    have passes : nested depth (gap ++ (v ++ (after ++ ascii '}' :: rest))) =
        .ok (after ++ ascii '}' :: rest) :=
      ih depth gap _ (by omega) third (delimited_append fourth (by simp) _)
    simp only [List.append_assoc,List.cons_append]
    rw [members_step leads first body second passes]
    exact members_close fourth rest
  | @nextMember before name middle gap v after s first body second third value fourth _ ih more =>
    intro depth fuel start lead rest bound enough leads
    have given := value_length value
    simp only [List.length_append,List.length_cons] at bound enough
    obtain ⟨fuel,rfl⟩ := Nat.exists_eq_add_of_le' (show 1 ≤ fuel by omega)
    have passes : nested depth (gap ++ (v ++ (after ++ ascii ',' :: (s ++ ascii '}' :: rest)))) =
        .ok (after ++ ascii ',' :: (s ++ ascii '}' :: rest)) :=
      ih depth gap _ (by omega) third (delimited_append fourth (by simp) _)
    simp only [List.append_assoc,List.cons_append]
    rw [members_step leads first body second passes,List.append_cons]
    exact more depth fuel false _ rest (by omega) (by omega) (.comma fourth)

/-- A value is passed over, whatever it nests, up to where it ends. -/
theorem value_complete {before v rest : Bytes} (blanks : Blanks before)
    (written : Written .value v) (delimited : Delimited rest) :
    value (before ++ (v ++ rest)) = .ok rest :=
  written_passes written _ before rest (by simp only [List.length_append]; omega) blanks delimited

theorem value_sound : Sound value := fun s _ passed => nested_sound s.length _ _ passed

theorem verbatim_sound {s raw rest : Bytes} (passed : verbatim s = .ok (raw,rest)) :
    ∃ before, Blanks before ∧ Written .value raw ∧ Utf8.Valid raw ∧
      s = before ++ (raw ++ rest) := by
  obtain ⟨left,scanned,passed⟩ := bind_eq_ok.mp passed
  obtain ⟨before,blanks,whole⟩ := skipBlanks_split s
  obtain ⟨more,v,white,written,split⟩ := value_sound _ _ scanned
  have none : more = [] := by
    cases more with
    | nil => rfl
    | cons b more =>
      have head := List.head?_dropWhile_not blank s
      rw [← skipBlanks,split] at head
      have blank := white b List.mem_cons_self
      simp [blank] at head
  rw [none,List.nil_append] at split
  rw [split,List.length_append,Nat.add_sub_cancel,List.take_left] at passed
  dsimp only at passed
  split at passed
  next chars decoded =>
    obtain ⟨rfl,rfl⟩ := Prod.mk.inj (Except.ok.inj passed)
    exact ⟨before,blanks,written,(Utf8.valid_iff_decode _).mpr (by rw [decoded]),
      by rw [whole,split]⟩
  next => simp [stopMalformed] at passed

theorem verbatim_complete {before v rest : Bytes} (blanks : Blanks before)
    (written : Written .value v) (valid : Utf8.Valid v) (delimited : Delimited rest) :
    verbatim (before ++ (v ++ rest)) = .ok (v,rest) := by
  obtain ⟨b,t,shape,ink,-⟩ := value_head written
  have start : skipBlanks (before ++ (v ++ rest)) = v ++ rest := by
    rw [skipBlanks_append blanks,shape,List.cons_append,skipBlanks_cons ink]
  have scanned := @value_complete [] v rest blanks_nil
    written delimited
  rw [List.nil_append] at scanned
  refine bind_eq_ok.mpr ⟨rest,by rw [start,scanned],?_⟩
  rw [start,List.length_append,Nat.add_sub_cancel,List.take_left]
  dsimp only
  have ends := (Utf8.valid_iff_decode v).mp valid
  split
  next => rfl
  next other => exact (other _ (Prod.ext rfl ends)).elim

end NodeAudit.Json.Skip
