import NodeAudit.Proofs.Json.Nesting
import NodeAudit.Proofs.Json.Object

/-! Reading an array reads its items one by one, whatever reads an item. -/
namespace NodeAudit.Json

section
variable {α : Type} (denotes : Bytes → α → Prop)

/-- Items told by what they denote, with the blanks around them and commas between them. -/
inductive Items : Bytes → List α → Prop where
  | last {before v after : Bytes} {a : α} (first : Blanks before) (value : denotes v a)
      (second : Blanks after) : Items (before ++ (v ++ after)) [a]
  | next {before v after s : Bytes} {a : α} {list : List α} (first : Blanks before)
      (value : denotes v a) (second : Blanks after) (rest : Items s list) :
      Items (before ++ (v ++ (after ++ ascii ',' :: s))) (a :: list)

/-- An array with its items as they stand. -/
inductive Sequence : Bytes → List α → Prop where
  | empty {s : Bytes} (inside : Blanks s) : Sequence (ascii '[' :: (s ++ [ascii ']'])) []
  | items {s : Bytes} {list : List α} (inside : Items denotes s list) :
      Sequence (ascii '[' :: (s ++ [ascii ']'])) list

/-- Nothing that is denoted begins with a blank or a closing bracket. -/
def Headed : Prop := ∀ v a, denotes v a →
  ∃ b t, v = b :: t ∧ Read.blank b = false ∧ b ≠ ascii ']'

end

namespace Read
variable {α : Type} {item : Bytes → Except Stop (α × Bytes)} {denotes : Bytes → α → Prop}

theorem more_true {first : Bool} {s rest : Bytes} (read : more first s = .ok (true,rest)) :
    ∃ lead before, Lead first lead ∧ Blanks before ∧ s = lead ++ (before ++ rest) := by
  obtain ⟨before,blanks,whole⟩ := skipBlanks_split s
  rw [more] at read
  split at read
  next => simp [stopAt] at read
  next b t left =>
    rw [left] at whole
    split at read
    next => simp at read
    split at read
    next start =>
      obtain ⟨-,rfl⟩ := Prod.mk.inj (Except.ok.inj read)
      exact ⟨[],before,start ▸ .start,blanks,whole⟩
    next later =>
      split at read
      next comma =>
        obtain ⟨gap,white,split⟩ := skipBlanks_split t
        split at read
        next => simp [stopAt] at read
        next c u after =>
          rw [after] at split
          split at read
          next => simp [stopAt] at read
          next =>
            obtain ⟨-,rfl⟩ := Prod.mk.inj (Except.ok.inj read)
            refine ⟨before ++ [ascii ','],gap,?_,white,by rw [whole,comma,split,List.append_cons]⟩
            rw [show first = false by simpa using later]
            exact .comma blanks
      next => simp [stopAt] at read

theorem more_false {first : Bool} {s rest : Bytes} (read : more first s = .ok (false,rest)) :
    ∃ before tail, Blanks before ∧ rest = ascii ']' :: tail ∧ s = before ++ rest := by
  obtain ⟨before,blanks,whole⟩ := skipBlanks_split s
  rw [more] at read
  split at read
  next => simp [stopAt] at read
  next b t left =>
    rw [left] at whole
    split at read
    next bracket =>
      obtain ⟨-,rfl⟩ := Prod.mk.inj (Except.ok.inj read)
      exact ⟨before,t,blanks,by rw [bracket],whole⟩
    split at read
    next => simp at read
    next =>
      split at read
      next =>
        split at read
        next => simp [stopAt] at read
        next =>
          split at read
          next => simp [stopAt] at read
          next => simp at read
      next => simp [stopAt] at read

theorem more_complete {first : Bool} {lead before s : Bytes} {b : UInt8} (leads : Lead first lead)
    (blanks : Blanks before) (ink : blank b = false) (bracket : b ≠ ascii ']') :
    more first (lead ++ (before ++ b :: s)) = .ok (true,b :: s) := by
  rw [more]
  cases leads with
  | start =>
    rw [List.nil_append,skipBlanks_append blanks,skipBlanks_cons ink]
    simp only [if_neg bracket,if_true]
  | comma separator =>
    rw [List.append_assoc,skipBlanks_append separator,List.cons_append,List.nil_append,
      skipBlanks_cons (by decide)]
    simp only [show ascii ',' ≠ ascii ']' by decide,Bool.false_eq_true,if_false,if_true]
    rw [skipBlanks_append blanks,skipBlanks_cons ink]
    simp only [if_neg bracket]

theorem more_close {first : Bool} {before : Bytes} (blanks : Blanks before) (rest : Bytes) :
    more first (before ++ ascii ']' :: rest) = .ok (false,ascii ']' :: rest) := by
  rw [more,skipBlanks_append blanks,skipBlanks_cons (by decide)]
  simp only [if_true]

theorem items_sound (sound : Sound item denotes) {fuel : Nat} {first : Bool} {s rest : Bytes}
    {list : List α} (passed : items item fuel first s = .ok (list,rest)) :
    ∃ tail, rest = ascii ']' :: tail ∧
      ((∃ before, Blanks before ∧ s = before ++ rest ∧ list = []) ∨
        ∃ lead inside, Lead first lead ∧ Items denotes inside list ∧ s = lead ++ (inside ++ rest)) := by
  induction fuel generalizing first s list with
  | zero => simp [items,stopAt] at passed
  | succ fuel ih =>
    obtain ⟨⟨found,left⟩,one,passed⟩ := bind_eq_ok.mp passed
    cases found with
    | false =>
      obtain ⟨rfl,rfl⟩ := Prod.mk.inj (Except.ok.inj passed)
      obtain ⟨before,tail,blanks,closed,whole⟩ := more_false one
      exact ⟨tail,closed,.inl ⟨before,blanks,whole,rfl⟩⟩
    | true =>
      obtain ⟨⟨a,after⟩,value,passed⟩ := bind_eq_ok.mp passed
      obtain ⟨⟨others,left⟩,later,passed⟩ := bind_eq_ok.mp passed
      obtain ⟨rfl,rfl⟩ := Prod.mk.inj (Except.ok.inj passed)
      obtain ⟨lead,before,leads,blanks,rfl⟩ := more_true one
      obtain ⟨gap,v,gaps,denoted,rfl⟩ := sound _ _ _ value
      have white := blanks_append blanks gaps
      obtain ⟨tail,closed,⟨after,ends,rfl,rfl⟩ | ⟨next,inside,leading,more,rfl⟩⟩ := ih later
      · exact ⟨tail,closed,.inr ⟨lead,_,leads,.last white denoted ends,by simp⟩⟩
      · cases leading with
        | comma ends => exact ⟨tail,closed,.inr ⟨lead,_,leads,.next white denoted ends more,by simp⟩⟩

theorem items_length (headed : Headed denotes) {s : Bytes} {list : List α}
    (written : Items denotes s list) : 0 < s.length := by
  have value {v : Bytes} {a : α} (denoted : denotes v a) : 0 < v.length := by
    obtain ⟨b,t,rfl,-⟩ := headed v a denoted
    exact Nat.succ_pos _
  cases written with
  | last _ denoted _ =>
    have given := value denoted
    simp only [List.length_append]
    omega
  | next _ denoted _ _ =>
    have given := value denoted
    simp only [List.length_append]
    omega

/-- Reading one item leaves what follows it. -/
theorem items_step (headed : Headed denotes) (reads : Completes item denotes) {v before : Bytes}
    {a : α} (denoted : denotes v a) (blanks : Blanks before) {first : Bool} {lead : Bytes}
    (leads : Lead first lead) (fuel : Nat) {rest : Bytes} (delimited : Delimited rest) :
    items item (fuel + 1) first (lead ++ (before ++ (v ++ rest))) = do
      let (tail,rest) ← items item fuel false rest
      return (a :: tail,rest) := by
  obtain ⟨b,t,shape,ink,bracket⟩ := headed v a denoted
  have one := reads [] v a rest blanks_nil denoted delimited
  rw [List.nil_append] at one
  rw [items,shape,List.cons_append,more_complete leads blanks ink bracket,← List.cons_append,← shape]
  show (item (v ++ rest) >>= _) = _
  rw [one]
  rfl

theorem items_complete (headed : Headed denotes) (reads : Completes item denotes) {inside : Bytes}
    {list : List α} (written : Items denotes inside list) {fuel : Nat} {first : Bool} {lead : Bytes}
    (rest : Bytes) (enough : inside.length < fuel) (leads : Lead first lead) :
    items item fuel first (lead ++ (inside ++ ascii ']' :: rest)) =
      .ok (list,ascii ']' :: rest) := by
  have close {after : Bytes} (white : Blanks after) (fuel : Nat) :
      items item (fuel + 1) false (after ++ ascii ']' :: rest) = .ok ([],ascii ']' :: rest) := by
    rw [items,more_close white]
    rfl
  induction written generalizing fuel first lead with
  | last blanks denoted ends =>
    have given := items_length headed (.last blanks denoted ends)
    obtain ⟨fuel,rfl⟩ := Nat.exists_eq_add_of_le' (show 2 ≤ fuel by omega)
    rw [List.append_assoc,List.append_assoc,items_step headed reads denoted blanks leads (fuel + 1)
      (delimited_append ends (.inr (.inl rfl)) rest),close ends]
    rfl
  | @next before v after s a list blanks denoted ends more ih =>
    simp only [List.length_append,List.length_cons] at enough
    obtain ⟨fuel,rfl⟩ := Nat.exists_eq_add_of_le' (show 1 ≤ fuel by omega)
    have tail := ih (show s.length < fuel by omega) (.comma ends)
    rw [← List.append_cons] at tail
    simp only [List.append_assoc,List.cons_append]
    rw [items_step headed reads denoted blanks leads fuel
      (delimited_append ends (.inl rfl) (s ++ ascii ']' :: rest)),tail]
    rfl

theorem closeArray_bracket (rest : Bytes) : closeArray (ascii ']' :: rest) = .ok rest := by
  rw [closeArray,skipBlanks_cons (by decide)]
  rfl

theorem array_complete (headed : Headed denotes) (reads : Completes item denotes)
    {s text rest : Bytes} {list : List α} (written : Sequence denotes text list)
    (whole : ascii '[' :: s = text ++ rest) : array item s = .ok (list,rest) := by
  cases written with
  | @empty inside blanks =>
    obtain rfl : s = inside ++ ascii ']' :: rest := by simpa using whole
    refine bind_eq_ok.mpr ⟨([],ascii ']' :: rest),?_,
      bind_eq_ok.mpr ⟨rest,closeArray_bracket rest,rfl⟩⟩
    rw [items,more_close blanks]
    rfl
  | @items inside list written =>
    obtain rfl : s = inside ++ ascii ']' :: rest := by simpa using whole
    refine bind_eq_ok.mpr ⟨(list,ascii ']' :: rest),?_,
      bind_eq_ok.mpr ⟨rest,closeArray_bracket rest,rfl⟩⟩
    exact items_complete headed reads written rest
      (show inside.length < (inside ++ ascii ']' :: rest).length + 1 by
        rw [List.length_append]
        omega) .start

theorem array_sound (sound : Sound item denotes) {s rest : Bytes} {list : List α}
    (passed : array item s = .ok (list,rest)) :
    ∃ text, Sequence denotes text list ∧ ascii '[' :: s = text ++ rest := by
  obtain ⟨⟨found,left⟩,inside,passed⟩ := bind_eq_ok.mp passed
  obtain ⟨after,closed,equal⟩ := bind_eq_ok.mp passed
  obtain ⟨rfl,rfl⟩ := Prod.mk.inj (Except.ok.inj equal)
  obtain ⟨tail,rfl,⟨before,blanks,rfl,rfl⟩ | ⟨lead,inside,leads,written,rfl⟩⟩ :=
    items_sound sound inside
  · obtain rfl := Except.ok.inj ((closeArray_bracket tail).symm.trans closed)
    exact ⟨_,.empty blanks,by simp⟩
  · obtain rfl := Except.ok.inj ((closeArray_bracket tail).symm.trans closed)
    cases leads with
    | start => exact ⟨_,.items written,by simp⟩

/-- An array is read, from after its opening bracket on, into the list of its items. -/
theorem array_iff (headed : Headed denotes) (reads : Reads item denotes) (s : Bytes) (list : List α)
    (rest : Bytes) : array item s = .ok (list,rest) ↔
      ∃ text, Sequence denotes text list ∧ ascii '[' :: s = text ++ rest := by
  constructor
  · exact array_sound reads.sound
  · rintro ⟨text,written,whole⟩
    exact array_complete headed reads.complete written whole

end Read
end NodeAudit.Json
