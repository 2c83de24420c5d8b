import NodeAudit.Json.Skip
import NodeAudit.Proofs.Json.Grammar
import NodeAudit.Proofs.Text.Utf8

/-! What the readers of single lexemes accept, as the grammar tells it. -/
namespace NodeAudit.Json.Read

theorem bind_eq_ok {ε α β : Type} {first : Except ε α} {next : α → Except ε β} {result : β} :
    first >>= next = .ok result ↔ ∃ a, first = .ok a ∧ next a = .ok result := by
  cases first with
  | error e =>
    constructor
    · intro impossible
      contradiction
    · rintro ⟨_,impossible,_⟩
      contradiction
  | ok a =>
    constructor
    · intro ok
      exact ⟨a,rfl,ok⟩
    · rintro ⟨b,same,ok⟩
      rw [← Except.ok.inj same] at ok
      exact ok

theorem map_eq_ok {ε α β : Type} {f : α → β} {read : Except ε α} {result : β} :
    f <$> read = .ok result ↔ ∃ a, read = .ok a ∧ f a = result := by
  rw [map_eq_pure_bind,bind_eq_ok]
  exact exists_congr fun a => and_congr_right fun _ => ⟨Except.ok.inj,congrArg Except.ok⟩

/-- What stands between an opening bracket or a value and what comes next: nothing at first, and a
comma later. -/
inductive Lead : Bool → Bytes → Prop where
  | start : Lead true []
  | comma {before : Bytes} (blanks : Blanks before) : Lead false (before ++ [ascii ','])

theorem blanks_nil : Blanks [] := fun _ member => absurd member List.not_mem_nil

theorem blanks_append {a b : Bytes} (first : Blanks a) (second : Blanks b) : Blanks (a ++ b) := by
  intro x member
  rcases List.mem_append.mp member with left | right
  · exact first x left
  · exact second x right

theorem skipBlanks_append {before : Bytes} (blanks : Blanks before) (s : Bytes) :
    skipBlanks (before ++ s) = skipBlanks s := by
  rw [skipBlanks,List.dropWhile_append_of_pos blanks]
  rfl

theorem skipBlanks_cons {b : UInt8} (ink : blank b = false) (s : Bytes) :
    skipBlanks (b :: s) = b :: s := by
  rw [skipBlanks,List.dropWhile_cons_of_neg (by simp [ink])]

theorem skipBlanks_split (s : Bytes) : ∃ before, Blanks before ∧ s = before ++ skipBlanks s := by
  refine ⟨s.takeWhile blank,fun b member => ?_,(List.takeWhile_append_dropWhile).symm⟩
  exact List.all_eq_true.mp List.all_takeWhile b member

theorem delimited_append {before : Bytes} (blanks : Blanks before) {b : UInt8}
    (closing : b = ascii ',' ∨ b = ascii ']' ∨ b = ascii '}') (rest : Bytes) :
    Delimited (before ++ b :: rest) := by
  cases before with
  | nil => exact .inr closing
  | cons x before => exact .inl (blanks x List.mem_cons_self)

theorem delimited_blanks_append {before rest : Bytes} (blanks : Blanks before)
    (delimited : Delimited rest) : Delimited (before ++ rest) := by
  cases before with
  | nil => exact delimited
  | cons b before => exact .inl (blanks b List.mem_cons_self)

theorem delimited_blanks {s : Bytes} (blanks : Blanks s) : Delimited s := by
  have alone := delimited_blanks_append blanks (show Delimited [] from trivial)
  rwa [List.append_nil] at alone

theorem literal_iff (expected s rest : Bytes) :
    literal expected s = .ok rest ↔ s = expected ++ rest := by
  induction expected generalizing s with
  | nil => simp [literal]
  | cons e expected ih =>
    cases s with
    | nil => simp [literal,stop]
    | cons b s =>
      rw [literal,List.cons_append,List.cons.injEq]
      split
      next same => rw [ih,and_iff_right same]
      next different => simp [stop,different]

/-- Reading on behind the first letter of a word takes up the rest of the word. -/
theorem word_ok {α : Type} {a found : α} {expected s rest : Bytes}
    (passed : (do return (a,← literal expected s)) = Except.ok (found,rest)) :
    a = found ∧ s = expected ++ rest := by
  obtain ⟨_,word,passed⟩ := bind_eq_ok.mp passed
  obtain ⟨rfl,rfl⟩ := Prod.mk.inj (Except.ok.inj passed)
  exact ⟨rfl,(literal_iff _ _ _).mp word⟩

theorem digits_skip (s : Bytes) : ∃ digits, Digits digits ∧ s = digits ++ skipDigits s ∧
    startsWithDigit (skipDigits s) = false := by
  refine ⟨s.takeWhile fun b => (digit? b).isSome,fun b member => ?_,
    (List.takeWhile_append_dropWhile).symm,?_⟩
  · exact List.all_eq_true.mp List.all_takeWhile b member
  · cases left : skipDigits s with
    | nil => rfl
    | cons b t =>
      have head := List.head?_dropWhile_not (fun b => (digit? b).isSome) s
      rw [← skipDigits,left] at head
      simpa [startsWithDigit] using head

theorem skipDigits_append {digits : Bytes} (inside : Digits digits) {rest : Bytes}
    (ends : startsWithDigit rest = false) : skipDigits (digits ++ rest) = rest := by
  rw [skipDigits,List.dropWhile_append_of_pos inside]
  cases rest with
  | nil => rfl
  | cons b s => exact List.dropWhile_cons_of_neg (by simpa [startsWithDigit] using ends)

theorem startsWithDigit_append {digits : Bytes} (given : digits ≠ []) (inside : Digits digits)
    (rest : Bytes) : startsWithDigit (digits ++ rest) = true := by
  cases digits with
  | nil => contradiction
  | cons b digits => exact inside b List.mem_cons_self

theorem add_eq_ok {before bytes rest : Bytes} {read : Except Stop (Bytes × Bytes)} :
    add before read = .ok (bytes,rest) ↔ ∃ tail, read = .ok (tail,rest) ∧ bytes = before ++ tail := by
  cases read with
  | error => simp [add,Except.map]
  | ok found =>
    obtain ⟨tail,left⟩ := found
    simp only [add,Except.map,Except.ok.injEq,Prod.mk.injEq]
    constructor
    · rintro ⟨rfl,rfl⟩
      exact ⟨tail,⟨rfl,rfl⟩,rfl⟩
    · rintro ⟨_,⟨rfl,rfl⟩,rfl⟩
      exact ⟨rfl,rfl⟩

theorem content_sound {s bytes rest : Bytes} (read : content s = .ok (bytes,rest)) :
    ∃ body, s = body ++ ascii '"' :: rest ∧ Spells body bytes := by
  fun_induction content s generalizing bytes with
  | case2 s =>
    obtain ⟨rfl,rfl⟩ := Prod.mk.inj (Except.ok.inj read)
    exact ⟨[],rfl,.nil⟩
  | case9 a b c d m high _ leads e f g h s n low trails =>
    rename_i ih
    obtain ⟨tail,found,equal⟩ := add_eq_ok.mp read
    obtain ⟨body,rfl,spelled⟩ := ih found
    rw [equal]
    exact ⟨_,rfl,.pair high leads low trails spelled⟩
  | case14 a b c d s n hex trails leads _ ih =>
    obtain ⟨tail,found,rfl⟩ := add_eq_ok.mp read
    obtain ⟨body,rfl,spelled⟩ := ih found
    exact ⟨_,rfl,.unit hex (Bool.not_eq_true _ ▸ leads) (Bool.not_eq_true _ ▸ trails) spelled⟩
  | case16 e s _ c known _ ih =>
    obtain ⟨tail,found,rfl⟩ := add_eq_ok.mp read
    obtain ⟨body,rfl,spelled⟩ := ih found
    exact ⟨_,rfl,.escape known spelled⟩
  | case19 b s quote backslash control ih =>
    obtain ⟨tail,found,rfl⟩ := add_eq_ok.mp read
    obtain ⟨body,rfl,spelled⟩ := ih found
    exact ⟨_,rfl,.plain quote backslash control spelled⟩
  | _ => simp [stop] at read

theorem escape?_unit : escape? (ascii 'u') = none := by decide

theorem content_complete {body bytes : Bytes} (spelled : Spells body bytes) (rest : Bytes) :
    content (body ++ ascii '"' :: rest) = .ok (bytes,rest) := by
  have apart : ascii '\\' ≠ ascii '"' := by decide
  induction spelled with
  | nil => rw [List.nil_append,content.eq_def]; simp
  | plain quote backslash control _ ih =>
    rw [List.cons_append,content.eq_def]
    simp only [if_neg quote,if_neg backslash,if_neg control,ih]
    rfl
  | @escape e c s t known _ ih =>
    have other : e ≠ ascii 'u' := by
      rintro rfl
      rw [escape?_unit] at known
      contradiction
    rw [List.cons_append,List.cons_append,content.eq_def]
    simp only [if_neg apart,if_pos,if_neg other,known,ih]
    rfl
  | unit hex leads trails _ ih =>
    simp only [List.cons_append]
    rw [content.eq_def]
    simp only [if_neg apart,if_pos,hex,leads,trails,Bool.false_eq_true,if_false,ih]
    rfl
  | @pair a b c d e f g h m n s t high leads low trails _ ih =>
    have single : trailing m = false := by
      simp only [leading,trailing,Bool.and_eq_true,decide_eq_true_eq] at leads ⊢
      rw [Bool.and_eq_false_iff,decide_eq_false_iff_not,decide_eq_false_iff_not]
      omega
    simp only [List.cons_append]
    rw [content.eq_def]
    simp only [if_neg apart,if_pos,high,low,leads,trails,single,Bool.false_eq_true,if_false,ih]
    rfl

theorem content_iff (s bytes rest : Bytes) : content s = .ok (bytes,rest) ↔
    ∃ body, s = body ++ ascii '"' :: rest ∧ Spells body bytes := by
  constructor
  · exact content_sound
  · rintro ⟨body,rfl,spelled⟩
    exact content_complete spelled rest

/-- A name is read exactly from what spells it. -/
theorem string_iff (s : Bytes) (text : String) (rest : Bytes) : string s = .ok (text,rest) ↔
    ∃ body, s = body ++ ascii '"' :: rest ∧ Spells body (Utf8.bytes text) := by
  rw [← content_iff,string]
  split
  next e failed => simp [failed]
  next bytes left read =>
    rw [read,Except.ok.injEq,Prod.mk.injEq,← Utf8.text_eq_some_iff]
    split
    next value found => rw [found,Except.ok.injEq,Prod.mk.injEq,Option.some.injEq]
    next missing =>
      rw [missing]
      simp [stopMalformed]

end NodeAudit.Json.Read
