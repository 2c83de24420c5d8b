import NodeAudit.Codec.Basic
import NodeAudit.Proofs.Json.Lexeme

/-! Reading an object reads its members one by one, whatever reads their values, and of those with
one name it keeps the last. -/
namespace NodeAudit.Json.Read

variable {α σ : Type}

/-- A reader reads values of one meaning only, with the blanks before them. -/
def Sound (read : Bytes → Except Stop (α × Bytes)) (denotes : Bytes → α → Prop) : Prop :=
  ∀ s a rest, read s = .ok (a,rest) →
    ∃ before v, Blanks before ∧ denotes v a ∧ s = before ++ (v ++ rest)

/-- A reader reads every value of one meaning. -/
def Completes (read : Bytes → Except Stop (α × Bytes)) (denotes : Bytes → α → Prop) : Prop :=
  ∀ before v a rest, Blanks before → denotes v a → Delimited rest →
    read (before ++ (v ++ rest)) = .ok (a,rest)

/-- A reader reads every value of one meaning and no others. -/
structure Reads (read : Bytes → Except Stop (α × Bytes)) (denotes : Bytes → α → Prop) : Prop where
  sound : Sound read denotes
  complete : Completes read denotes

theorem colon_iff (s rest : Bytes) : colon s = .ok rest ↔
    ∃ middle, Blanks middle ∧ s = middle ++ ascii ':' :: rest := by
  constructor
  · intro read
    obtain ⟨before,blanks,whole⟩ := skipBlanks_split s
    rw [colon] at read
    split at read
    next => simp [stopAt] at read
    next b t left =>
      rw [left] at whole
      split at read
      next equal =>
        rw [equal,Except.ok.inj read] at whole
        exact ⟨before,blanks,whole⟩
      next => simp [stopAt] at read
  · rintro ⟨middle,blanks,rfl⟩
    rw [colon,skipBlanks_append blanks,skipBlanks_cons (by decide)]
    simp only [if_true]

theorem named_ok {t rest : Bytes} {found : Option String}
    (read : (string t >>= fun x => return (some x.1,x.2)) = Except.ok (found,rest)) :
    ∃ key body, found = some key ∧ t = body ++ ascii '"' :: rest ∧
      Spells body (Utf8.bytes key) := by
  obtain ⟨⟨key,left⟩,one,equal⟩ := bind_eq_ok.mp read
  obtain ⟨rfl,rfl⟩ := Prod.mk.inj (Except.ok.inj equal)
  obtain ⟨body,whole,spelled⟩ := (string_iff _ _ _).mp one
  exact ⟨key,body,rfl,whole,spelled⟩

theorem name_some {first : Bool} {s rest : Bytes} {key : String}
    (read : name first s = .ok (some key,rest)) :
    ∃ lead before body, Lead first lead ∧ Blanks before ∧ Spells body (Utf8.bytes key) ∧
      s = lead ++ (before ++ ascii '"' :: (body ++ ascii '"' :: rest)) := by
  obtain ⟨before,blanks,whole⟩ := skipBlanks_split s
  rw [name] at read
  split at read
  next => simp [stopAt] at read
  next b t left =>
    rw [left] at whole
    split at read
    next => simp at read
    split at read
    next comma =>
      obtain ⟨more,white,split⟩ := skipBlanks_split t
      split at read
      next => simp [stopAt] at read
      next c u after =>
        rw [after] at split
        split at read
        next quote =>
          obtain ⟨text,body,equal,rfl,spelled⟩ := named_ok read
          obtain rfl := Option.some.inj equal
          refine ⟨before ++ [ascii ','],more,body,?_,white,spelled,?_⟩
          · rw [show first = false by simpa using comma.2]
            exact .comma blanks
          · rw [whole,comma.1,split,quote,List.append_cons]
        next =>
          split at read
          next => simp [stopAt] at read
          next => simp [stopAt] at read
    next =>
      split at read
      next start =>
        split at read
        next quote =>
          obtain ⟨text,body,equal,rfl,spelled⟩ := named_ok read
          obtain rfl := Option.some.inj equal
          exact ⟨[],before,body,start ▸ .start,blanks,spelled,by rw [whole,quote]; rfl⟩
        next => simp [stopAt] at read
      next => simp [stopAt] at read

theorem name_none {first : Bool} {s rest : Bytes} (read : name first s = .ok (none,rest)) :
    ∃ before tail, Blanks before ∧ rest = ascii '}' :: tail ∧ s = before ++ rest := by
  obtain ⟨before,blanks,whole⟩ := skipBlanks_split s
  rw [name] at read
  split at read
  next => simp [stopAt] at read
  next b t left =>
    rw [left] at whole
    split at read
    next brace =>
      obtain ⟨-,rfl⟩ := Prod.mk.inj (Except.ok.inj read)
      exact ⟨before,t,blanks,by rw [brace],whole⟩
    split at read
    next =>
      split at read
      next => simp [stopAt] at read
      next =>
        split at read
        next =>
          obtain ⟨_,_,impossible,_⟩ := named_ok read
          contradiction
        next =>
          split at read
          next => simp [stopAt] at read
          next => simp [stopAt] at read
    next =>
      split at read
      next =>
        split at read
        next =>
          obtain ⟨_,_,impossible,_⟩ := named_ok read
          contradiction
        next => simp [stopAt] at read
      next => simp [stopAt] at read

theorem name_complete {first : Bool} {lead before body : Bytes} {key : String}
    (leads : Lead first lead) (blanks : Blanks before) (spelled : Spells body (Utf8.bytes key))
    (rest : Bytes) :
    name first (lead ++ (before ++ ascii '"' :: (body ++ ascii '"' :: rest))) =
      .ok (some key,rest) := by
  have read : string (body ++ ascii '"' :: rest) = .ok (key,rest) :=
    (string_iff _ _ _).mpr ⟨body,rfl,spelled⟩
  cases leads with
  | start =>
    rw [name,List.nil_append,skipBlanks_append blanks,skipBlanks_cons (by decide)]
    simp only [show ascii '"' ≠ ascii '}' by decide,show ascii '"' ≠ ascii ',' by decide,
      false_and,if_false,if_true,read]
    rfl
  | comma separator =>
    rw [name,List.append_assoc,skipBlanks_append separator,List.cons_append,List.nil_append,
      skipBlanks_cons (by decide)]
    simp only [show ascii ',' ≠ ascii '}' by decide,Bool.not_false,and_true,if_true,if_false]
    rw [skipBlanks_append blanks,skipBlanks_cons (by decide)]
    simp only [if_true,read]
    rfl

theorem name_close {first : Bool} {before : Bytes} (blanks : Blanks before) (rest : Bytes) :
    name first (before ++ ascii '}' :: rest) = .ok (none,ascii '}' :: rest) := by
  rw [name,skipBlanks_append blanks,skipBlanks_cons (by decide)]
  simp only [if_true]

/-- What one member of an object preserves, all of them do. -/
theorem members_preserve {member : σ → String → Bytes → Except Stop (σ × Bytes)} {P : σ → Prop}
    (step : ∀ state key s next rest, P state → member state key s = .ok (next,rest) → P next)
    {fuel : Nat} {first : Bool} {state found : σ} {s rest : Bytes} (start : P state)
    (passed : members member fuel first state s = .ok (found,rest)) : P found := by
  induction fuel generalizing first state s with
  | zero => simp [members,stopAt] at passed
  | succ fuel ih =>
    obtain ⟨⟨key,left⟩,_,passed⟩ := bind_eq_ok.mp passed
    cases key with
    | none =>
      obtain ⟨rfl,-⟩ := Prod.mk.inj (Except.ok.inj passed)
      exact start
    | some key =>
      obtain ⟨⟨next,left⟩,one,passed⟩ := bind_eq_ok.mp passed
      exact ih (step _ _ _ _ _ start one) passed

/-- Reads from after a name on and puts what it finds under that name. -/
def insertion (read : Bytes → Except Stop (α × Bytes)) (map : SortedMap α) (key : String)
    (s : Bytes) : Except Stop (SortedMap α × Bytes) := do
  let (found,rest) ← read (← colon s)
  return (map.insert key found,rest)

def fill (map : SortedMap α) (list : List (String × α)) : SortedMap α :=
  list.foldl (fun map entry => map.insert entry.1 entry.2) map

variable {read : Bytes → Except Stop (α × Bytes)} {denotes : Bytes → α → Prop}

theorem insertion_sound (sound : Sound read denotes) {map found : SortedMap α} {key : String}
    {s rest : Bytes} (step : insertion read map key s = .ok (found,rest)) :
    ∃ middle gap v a, Blanks middle ∧ Blanks gap ∧ denotes v a ∧ found = map.insert key a ∧
      s = middle ++ ascii ':' :: (gap ++ (v ++ rest)) := by
  obtain ⟨after,separator,step⟩ := bind_eq_ok.mp step
  obtain ⟨⟨a,left⟩,value,equal⟩ := bind_eq_ok.mp step
  obtain ⟨rfl,rfl⟩ := Prod.mk.inj (Except.ok.inj equal)
  obtain ⟨middle,blanks,rfl⟩ := (colon_iff _ _).mp separator
  obtain ⟨gap,v,gaps,denoted,rfl⟩ := sound _ _ _ value
  exact ⟨middle,gap,v,a,blanks,gaps,denoted,rfl,rfl⟩

theorem insertion_complete (reads : Completes read denotes) (map : SortedMap α) (key : String)
    {middle gap v rest : Bytes} {a : α} (first : Blanks middle) (second : Blanks gap)
    (value : denotes v a) (delimited : Delimited rest) :
    insertion read map key (middle ++ ascii ':' :: (gap ++ (v ++ rest))) =
      .ok (map.insert key a,rest) := by
  have separator := (colon_iff _ (gap ++ (v ++ rest))).mpr ⟨middle,first,rfl⟩
  rw [insertion,separator]
  show (read (gap ++ (v ++ rest)) >>= _) = _
  rw [reads gap v a rest second value delimited]
  rfl

theorem members_sound (sound : Sound read denotes) {fuel : Nat} {first : Bool}
    {map found : SortedMap α} {s rest : Bytes}
    (passed : members (insertion read) fuel first map s = .ok (found,rest)) :
    ∃ tail, rest = ascii '}' :: tail ∧
      ((∃ before, Blanks before ∧ s = before ++ rest ∧ found = map) ∨
        ∃ lead inside list, Lead first lead ∧ Members denotes inside list ∧
          s = lead ++ (inside ++ rest) ∧ found = fill map list) := by
  induction fuel generalizing first map s with
  | zero => simp [members,stopAt] at passed
  | succ fuel ih =>
    obtain ⟨⟨key,left⟩,named,passed⟩ := bind_eq_ok.mp passed
    cases key with
    | none =>
      obtain ⟨rfl,rfl⟩ := Prod.mk.inj (Except.ok.inj passed)
      obtain ⟨before,tail,blanks,closed,whole⟩ := name_none named
      exact ⟨tail,closed,.inl ⟨before,blanks,whole,rfl⟩⟩
    | some key =>
      obtain ⟨⟨next,left⟩,step,others⟩ := bind_eq_ok.mp passed
      obtain ⟨lead,before,body,leads,blanks,spelled,rfl⟩ := name_some named
      obtain ⟨middle,gap,v,a,middles,gaps,denoted,rfl,rfl⟩ := insertion_sound sound step
      obtain ⟨tail,closed,⟨after,white,rfl,rfl⟩ | ⟨lead,inside,list,later,more,rfl,rfl⟩⟩ :=
        ih others
      · refine ⟨tail,closed,.inr ⟨lead,_,_,leads,
          .last (.parts blanks spelled middles gaps denoted white),?_,rfl⟩⟩
        simp
      · cases later with
        | comma white =>
          refine ⟨tail,closed,.inr ⟨lead,_,_,leads,
            .next (.parts blanks spelled middles gaps denoted white) more,?_,rfl⟩⟩
          simp

theorem member_length {s : Bytes} {entry : String × α} (written : Member denotes s entry) :
    0 < s.length := by
  obtain ⟨_,_,_,_,_,_⟩ := written
  simp only [List.length_append,List.length_cons]
  omega

/-- What a reader of members makes of members whose values are told by what they denote, from
whatever texts. -/
inductive Gathers (member : σ → String → Bytes → Except Stop (σ × Bytes))
    (denotes : Bytes → α → Prop) : σ → List (String × α) → σ → Prop where
  | nil {state : σ} : Gathers member denotes state [] state
  | cons {state next found : σ} {key : String} {a : α} {list : List (String × α)}
      (step : ∀ middle gap v rest, Blanks middle → Blanks gap → denotes v a → Delimited rest →
        member state key (middle ++ ascii ':' :: (gap ++ (v ++ rest))) = .ok (next,rest))
      (others : Gathers member denotes next list found) :
      Gathers member denotes state ((key,a) :: list) found

theorem gathers_insertion (reads : Completes read denotes) (map : SortedMap α)
    (list : List (String × α)) : Gathers (insertion read) denotes map list (fill map list) := by
  induction list generalizing map with
  | nil => exact .nil
  | cons entry list ih =>
    refine .cons (fun middle gap v rest first second value delimited => ?_) (ih _)
    exact insertion_complete reads map entry.1 first second value delimited

section
variable {member : σ → String → Bytes → Except Stop (σ × Bytes)} {state next found : σ}

/-- Reading one member leaves the blanks after it. -/
theorem members_step {s lead : Bytes} {key : String} {a : α} (written : Member denotes s (key,a))
    {first : Bool} (leads : Lead first lead) (fuel : Nat) {b : UInt8}
    (closing : b = ascii ',' ∨ b = ascii ']' ∨ b = ascii '}') (rest : Bytes)
    (step : ∀ middle gap v rest, Blanks middle → Blanks gap → denotes v a → Delimited rest →
      member state key (middle ++ ascii ':' :: (gap ++ (v ++ rest))) = .ok (next,rest)) :
    ∃ after, Blanks after ∧
      members member (fuel + 1) first state (lead ++ (s ++ b :: rest)) =
        members member fuel false next (after ++ b :: rest) := by
  obtain @⟨before,body,middle,gap,v,after,_,_,blanks,spelled,middles,gaps,value,white⟩ := written
  refine ⟨after,white,?_⟩
  simp only [List.append_assoc,List.cons_append]
  rw [members,name_complete leads blanks spelled]
  show (member state key _ >>= _) = _
  rw [step _ _ _ _ middles gaps value (delimited_append white closing rest)]
  rfl

theorem members_gather {inside : Bytes} {list : List (String × α)}
    (written : Members denotes inside list) (gathers : Gathers member denotes state list found)
    {fuel : Nat} {first : Bool} {lead : Bytes} (rest : Bytes) (enough : inside.length < fuel)
    (leads : Lead first lead) : members member fuel first state
      (lead ++ (inside ++ ascii '}' :: rest)) = .ok (found,ascii '}' :: rest) := by
  induction written generalizing fuel first lead state with
  | last only =>
    have given : 0 < _ := member_length only
    obtain ⟨fuel,rfl⟩ := Nat.exists_eq_add_of_le' (show 2 ≤ fuel by omega)
    cases gathers with
    | cons step others =>
      cases others
      obtain ⟨after,white,same⟩ :=
        members_step only leads (fuel + 1) (.inr (.inr rfl)) rest step
      rw [same,members,name_close white]
      rfl
  | @next s t entry list one _ ih =>
    rw [List.length_append,List.length_cons] at enough
    obtain ⟨fuel,rfl⟩ := Nat.exists_eq_add_of_le' (show 1 ≤ fuel by omega)
    cases gathers with
    | cons step others =>
      obtain ⟨after,white,same⟩ :=
        members_step one leads fuel (.inl rfl) (t ++ ascii '}' :: rest) step
      rw [List.append_assoc,List.cons_append,same,List.append_cons]
      exact ih others (by omega) (.comma white)

/-- The members of an object are read, from after its opening brace on, up to its closing brace. -/
theorem object_gathers {s text rest : Bytes} {list : List (String × α)}
    (gathers : Gathers member denotes state list found) (written : Object denotes text list)
    (whole : ascii '{' :: s = text ++ rest) :
    members member (s.length + 1) true state s = .ok (found,ascii '}' :: rest) := by
  cases written with
  | @empty inside blanks =>
    obtain rfl : s = inside ++ ascii '}' :: rest := by simpa using whole
    cases gathers
    rw [members,name_close blanks]
    rfl
  | @members inside list written =>
    obtain rfl : s = inside ++ ascii '}' :: rest := by simpa using whole
    exact members_gather written gathers rest
      (show inside.length < (inside ++ ascii '}' :: rest).length + 1 by
        rw [List.length_append]
        omega) .start

end

theorem closeObject_brace (rest : Bytes) : closeObject (ascii '}' :: rest) = .ok rest := by
  rw [closeObject,skipBlanks_cons (by decide)]
  rfl

theorem object_complete (reads : Completes read denotes) {s text rest : Bytes}
    {list : List (String × α)} (written : Object denotes text list)
    (whole : ascii '{' :: s = text ++ rest) :
    object read s = .ok (SortedMap.ofList list,rest) :=
  bind_eq_ok.mpr ⟨(SortedMap.ofList list,ascii '}' :: rest),
    object_gathers (gathers_insertion reads .empty list) written whole,
    bind_eq_ok.mpr ⟨rest,closeObject_brace rest,rfl⟩⟩

theorem object_sound (sound : Sound read denotes) {s rest : Bytes} {map : SortedMap α}
    (passed : object read s = .ok (map,rest)) : ∃ text list, Object denotes text list ∧
      ascii '{' :: s = text ++ rest ∧ map = SortedMap.ofList list := by
  obtain ⟨⟨found,left⟩,inside,passed⟩ := bind_eq_ok.mp passed
  obtain ⟨after,closed,equal⟩ := bind_eq_ok.mp passed
  obtain ⟨rfl,rfl⟩ := Prod.mk.inj (Except.ok.inj equal)
  obtain ⟨tail,rfl,⟨before,blanks,rfl,rfl⟩ | ⟨lead,inside,list,leads,written,rfl,rfl⟩⟩ :=
    members_sound sound inside
  · obtain rfl := Except.ok.inj ((closeObject_brace tail).symm.trans closed)
    exact ⟨_,_,.empty blanks,by simp,rfl⟩
  · obtain rfl := Except.ok.inj ((closeObject_brace tail).symm.trans closed)
    cases leads with
    | start => exact ⟨_,_,.members written,by simp,rfl⟩

/-- An object is read, from after its opening brace on, into the map of its members. -/
theorem object_iff (reads : Reads read denotes) (s : Bytes) (map : SortedMap α) (rest : Bytes) :
    object read s = .ok (map,rest) ↔
      ∃ text list, Object denotes text list ∧ ascii '{' :: s = text ++ rest ∧
        map = SortedMap.ofList list := by
  constructor
  · exact object_sound reads.sound
  · rintro ⟨text,list,written,whole,rfl⟩
    exact object_complete reads.complete written whole

theorem mismatch_error (expected : String) (s : Bytes) (a : α) : mismatch expected s ≠ .ok a := by
  intro passed
  unfold mismatch at passed
  split at passed
  next => contradiction
  next =>
    repeat' split at passed
    all_goals first
      | contradiction
      | obtain ⟨_,_,impossible⟩ := bind_eq_ok.mp passed
        contradiction

/-- Blanks and an object begin with a blank or with a brace. -/
theorem braced_head {before text rest t : Bytes} {list : List (String × α)} {b : UInt8}
    (blanks : Blanks before) (written : Object denotes text list)
    (whole : b :: t = before ++ (text ++ rest)) : blank b = true ∨ b = ascii '{' := by
  cases before with
  | cons x before => exact .inl ((List.cons.inj whole).1 ▸ blanks x List.mem_cons_self)
  | nil => cases written <;> exact .inr (List.cons.inj whole).1

/-- An object is read from the blanks before it on, and nothing else where it is asked for. -/
theorem braced_iff (reads : Reads read denotes) (expected : String) (s : Bytes) (map : SortedMap α)
    (rest : Bytes) : (Codec.atByte fun b t => if b = ascii '{' then object read t
        else mismatch expected (b :: t)) s = .ok (map,rest) ↔ ∃ before text list, Blanks before ∧
      Object denotes text list ∧ s = before ++ (text ++ rest) ∧ map = .ofList list := by
  obtain ⟨before,blanks,whole⟩ := skipBlanks_split s
  rw [Codec.atByte]
  constructor
  · intro passed
    split at passed
    next => contradiction
    next b t start =>
      rw [start] at whole
      split at passed
      next brace =>
        obtain ⟨text,list,written,split,found⟩ := (object_iff reads _ _ _).mp passed
        exact ⟨before,text,list,blanks,written,by rw [whole,brace,split],found⟩
      next => exact absurd passed (mismatch_error _ _ _)
  · rintro ⟨before,text,list,blanks,written,rfl,found⟩
    obtain ⟨inside,shape⟩ : ∃ inside, text = ascii '{' :: inside := by
      cases written <;> exact ⟨_,rfl⟩
    rw [skipBlanks_append blanks,shape,List.cons_append,skipBlanks_cons (by decide)]
    simp only [if_true]
    exact (object_iff reads _ _ _).mpr ⟨text,list,written,by rw [shape,List.cons_append],found⟩

theorem document_iff (read : Bytes → Except Stop (α × Bytes)) (whole : Bytes) (a : α) :
    document read whole = .ok a ↔ ∃ rest, read whole = .ok (a,rest) ∧ Blanks rest := by
  rw [document]
  cases passed : read whole with
  | error e =>
    constructor
    · intro impossible
      contradiction
    · rintro ⟨_,impossible,_⟩
      contradiction
  | ok found =>
    obtain ⟨b,left⟩ := found
    obtain ⟨before,blanks,split⟩ := skipBlanks_split left
    simp only [bind,Except.bind]
    cases after : skipBlanks left with
    | nil =>
      rw [after,List.append_nil] at split
      constructor
      · intro same
        rw [← Except.ok.inj same]
        exact ⟨left,rfl,split ▸ blanks⟩
      · rintro ⟨_,same,_⟩
        rw [(Prod.mk.inj (Except.ok.inj same)).1]
        rfl
    | cons c rest =>
      constructor
      · intro impossible
        contradiction
      · rintro ⟨_,same,white⟩
        obtain ⟨-,rfl⟩ := Prod.mk.inj (Except.ok.inj same)
        have none := skipBlanks_append white []
        rw [List.append_nil,after] at none
        contradiction

end NodeAudit.Json.Read
