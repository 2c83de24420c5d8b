import NodeAudit.Proofs.Json.Lexeme

/-! Passing over a value accepts the grammar, the whole of it and nothing else, and stops where the
value ends. -/
namespace NodeAudit.Json.Skip
open Read

theorem string_sound {s rest : Bytes} (passed : string s = .ok rest) :
    ∃ body, s = body ++ ascii '"' :: rest ∧ Body body := by
  fun_induction string s with
  | case2 s =>
    rw [Except.ok.inj passed]
    exact ⟨[],rfl,.nil⟩
  | case4 a b c d s hex _ ih =>
    obtain ⟨body,rfl,inside⟩ := ih passed
    exact ⟨_,rfl,.unit hex inside⟩
  | case7 e s _ known _ ih =>
    obtain ⟨body,rfl,inside⟩ := ih passed
    exact ⟨_,rfl,.escape known inside⟩
  | case10 b s quote backslash control ih =>
    obtain ⟨body,rfl,inside⟩ := ih passed
    exact ⟨_,rfl,.plain quote backslash control inside⟩
  | _ => simp [stop] at passed

theorem string_complete {body : Bytes} (inside : Body body) (rest : Bytes) :
    string (body ++ ascii '"' :: rest) = .ok rest := by
  have apart : ascii '\\' ≠ ascii '"' := by decide
  induction inside with
  | nil =>
    rw [List.nil_append,string.eq_def]
    simp
  | plain quote backslash control _ ih =>
    rw [List.cons_append,string.eq_def]
    simp only [if_neg quote,if_neg backslash,if_neg control,ih]
  | @escape e s known _ ih =>
    have other : e ≠ ascii 'u' := by
      rintro rfl
      rw [escape?_unit] at known
      contradiction
    rw [List.cons_append,List.cons_append,string.eq_def]
    simp only [if_neg apart,if_pos,if_neg other,known,ih]
  | unit hex _ ih =>
    simp only [List.cons_append]
    rw [string.eq_def]
    simp only [if_neg apart,if_pos,hex,ih]

theorem exponent_sound {s rest : Bytes} (passed : exponent s = .ok rest) :
    ∃ digits, digits ≠ [] ∧ Digits digits ∧ (s = digits ++ rest ∨
      ∃ sign, (sign = ascii '+' ∨ sign = ascii '-') ∧ s = sign :: (digits ++ rest)) := by
  have run : ∀ b t, (if (digit? b).isSome then .ok (skipDigits t) else stop .invalidNumber t) =
      Except.ok rest → ∃ digits, digits ≠ [] ∧ Digits digits ∧ b :: t = digits ++ rest := by
    intro b t passed
    split at passed
    next digit =>
      obtain ⟨digits,inside,whole,-⟩ := digits_skip t
      rw [Except.ok.inj passed] at whole
      exact ⟨b :: digits,List.cons_ne_nil _ _,List.forall_mem_cons.mpr ⟨digit,inside⟩,by
        rw [whole]; rfl⟩
    next => contradiction
  cases s with
  | nil => simp [exponent,stop] at passed
  | cons b t =>
    by_cases sign : b = ascii '+' ∨ b = ascii '-'
    · simp only [exponent,if_pos sign] at passed
      cases t with
      | nil => contradiction
      | cons c t =>
        obtain ⟨digits,given,inside,whole⟩ := run c t passed
        exact ⟨digits,given,inside,.inr ⟨b,sign,by rw [whole]⟩⟩
    · simp only [exponent,if_neg sign] at passed
      obtain ⟨digits,given,inside,whole⟩ := run b t passed
      exact ⟨digits,given,inside,.inl whole⟩

theorem afterDigits_sound {s rest : Bytes} (passed : afterDigits s = .ok rest) :
    ∃ tail, s = tail ++ rest ∧ Exponent tail := by
  cases s with
  | nil =>
    rw [← Except.ok.inj passed]
    exact ⟨[],rfl,.absent⟩
  | cons b s =>
    rw [afterDigits] at passed
    split at passed
    next letter =>
      obtain ⟨digits,given,inside,rfl | ⟨sign,signs,rfl⟩⟩ := exponent_sound passed
      · exact ⟨_,rfl,.plain letter given inside⟩
      · exact ⟨_,rfl,.signed letter signs given inside⟩
    next =>
      rw [← Except.ok.inj passed]
      exact ⟨[],rfl,.absent⟩

theorem digits_cons {b : UInt8} {s : Bytes} (starts : startsWithDigit (b :: s) = true) :
    ∃ digits, digits ≠ [] ∧ Digits digits ∧ b :: s = digits ++ skipDigits (b :: s) := by
  obtain ⟨digits,inside,whole,ends⟩ := digits_skip (b :: s)
  refine ⟨digits,?_,inside,whole⟩
  rintro rfl
  rw [List.nil_append] at whole
  rw [← whole,starts] at ends
  contradiction

theorem afterWhole_sound {s rest : Bytes} (passed : afterWhole s = .ok rest) :
    ∃ first second, s = first ++ (second ++ rest) ∧ Fraction first ∧ Exponent second := by
  cases s with
  | nil =>
    rw [← Except.ok.inj passed]
    exact ⟨[],[],rfl,.absent,.absent⟩
  | cons b s =>
    rw [afterWhole] at passed
    split at passed
    next point =>
      split at passed
      next starts =>
        cases s with
        | nil => contradiction
        | cons c s =>
          obtain ⟨digits,given,inside,whole⟩ := digits_cons starts
          obtain ⟨tail,left,exponent⟩ := afterDigits_sound passed
          refine ⟨_,tail,?_,.digits given inside,exponent⟩
          rw [point,List.cons_append,← left,← whole]
      next => simp [stopAt] at passed
    next =>
      obtain ⟨tail,left,exponent⟩ := afterDigits_sound passed
      exact ⟨[],tail,left,.absent,exponent⟩

theorem digit?_eq_zero {b : UInt8} (zero : digit? b = some 0) : b = ascii '0' := by
  rw [digit?,Option.ite_none_right_eq_some,Option.some.injEq] at zero
  obtain ⟨⟨low,_⟩,value⟩ := zero
  rw [UInt8.le_iff_toNat_le] at low
  rw [← UInt8.toNat_inj]
  simp only [UInt8.reduceToNat] at low
  have code : (ascii '0').toNat = 0x30 := by decide
  omega

theorem number_sound {s rest : Bytes} (passed : number s = .ok rest) :
    ∃ v, s = v ++ rest ∧ Magnitude v := by
  cases s with
  | nil => simp [number,stop] at passed
  | cons b s =>
    rw [number] at passed
    split at passed
    next => simp [stop] at passed
    next zero =>
      split at passed
      next => simp [stopAt] at passed
      next =>
        obtain ⟨fraction,exponent,rfl,first,second⟩ := afterWhole_sound passed
        refine ⟨_,?_,.parts .zero first second⟩
        rw [digit?_eq_zero zero]
        simp
    next d nonzero digit =>
      obtain ⟨digits,inside,whole,-⟩ := digits_skip s
      obtain ⟨fraction,exponent,left,first,second⟩ := afterWhole_sound passed
      have lead : b ≠ ascii '0' := by
        rintro rfl
        exact nonzero (Option.some.inj digit).symm
      refine ⟨_,?_,.parts (.digits (by rw [digit]; rfl) lead inside) first second⟩
      rw [whole,left]
      simp

theorem delimited_plain {b : UInt8} {s : Bytes} (delimited : Delimited (b :: s)) :
    (digit? b).isSome = false ∧ b ≠ ascii '.' ∧ b ≠ ascii 'e' ∧ b ≠ ascii 'E' := by
  rcases delimited with white | rfl | rfl | rfl
  · simp only [blank,Bool.or_eq_true,beq_iff_eq] at white
    rcases white with ((rfl | rfl) | rfl) | rfl <;> decide
  · decide
  · decide
  · decide

theorem delimited_digit {s : Bytes} (delimited : Delimited s) : startsWithDigit s = false := by
  cases s with
  | nil => rfl
  | cons b s => exact (delimited_plain delimited).1

theorem exponent_complete {digits rest : Bytes} (given : digits ≠ []) (inside : Digits digits)
    (ends : startsWithDigit rest = false) : exponent (digits ++ rest) = .ok rest ∧
      ∀ sign, sign = ascii '+' ∨ sign = ascii '-' →
        exponent (sign :: (digits ++ rest)) = .ok rest := by
  cases digits with
  | nil => contradiction
  | cons b digits =>
    have digit := inside b List.mem_cons_self
    have unsigned : ¬(b = ascii '+' ∨ b = ascii '-') := by
      rintro (rfl | rfl)
      · exact absurd digit (by decide)
      · exact absurd digit (by decide)
    have tail : skipDigits (digits ++ rest) = rest :=
      skipDigits_append (fun x member => inside x (List.mem_cons_of_mem _ member)) ends
    constructor
    · simp only [exponent,List.cons_append,if_neg unsigned,digit,if_true,tail]
    · intro sign signs
      simp only [exponent,List.cons_append,if_pos signs,digit,if_true,tail]

theorem afterDigits_complete {tail rest : Bytes} (part : Exponent tail)
    (delimited : Delimited rest) : afterDigits (tail ++ rest) = .ok rest := by
  have ends := delimited_digit delimited
  cases part with
  | absent =>
    cases rest with
    | nil => rfl
    | cons b s =>
      obtain ⟨_,_,small,large⟩ := delimited_plain delimited
      rw [List.nil_append,afterDigits,if_neg (not_or.mpr ⟨small,large⟩)]
  | plain letters given inside =>
    rw [List.cons_append,afterDigits,if_pos letters]
    exact (exponent_complete given inside ends).1
  | signed letters signs given inside =>
    rw [List.cons_append,List.cons_append,afterDigits,if_pos letters]
    exact (exponent_complete given inside ends).2 _ signs

theorem exponent_ends {tail rest : Bytes} (part : Exponent tail) (delimited : Delimited rest) :
    startsWithDigit (tail ++ rest) = false := by
  have letter : ∀ b : UInt8, b = ascii 'e' ∨ b = ascii 'E' → (digit? b).isSome = false := by
    rintro b (rfl | rfl) <;> decide
  cases part with
  | absent => exact delimited_digit delimited
  | plain letters _ _ => exact letter _ letters
  | signed letters _ _ _ => exact letter _ letters

theorem exponent_point {tail rest : Bytes} (part : Exponent tail) (delimited : Delimited rest)
    {b : UInt8} {s : Bytes} (shape : tail ++ rest = b :: s) : b ≠ ascii '.' := by
  have letter : ∀ b : UInt8, b = ascii 'e' ∨ b = ascii 'E' → b ≠ ascii '.' := by
    rintro b (rfl | rfl) <;> decide
  cases part with
  | absent =>
    rw [List.nil_append] at shape
    exact (delimited_plain (shape ▸ delimited)).2.1
  | plain letters _ _ => exact (List.cons.inj shape).1 ▸ letter _ letters
  | signed letters _ _ _ => exact (List.cons.inj shape).1 ▸ letter _ letters

theorem afterWhole_complete {fraction tail rest : Bytes} (first : Fraction fraction)
    (second : Exponent tail) (delimited : Delimited rest) :
    afterWhole (fraction ++ (tail ++ rest)) = .ok rest := by
  cases first with
  | absent =>
    have after := afterDigits_complete second delimited
    rw [List.nil_append]
    cases left : tail ++ rest with
    | nil =>
      rw [left] at after
      exact after
    | cons b s =>
      rw [left] at after
      rw [afterWhole,if_neg (exponent_point second delimited left),after]
  | digits given inside =>
    rw [List.cons_append,afterWhole,if_pos rfl,if_pos (startsWithDigit_append given inside _),
      skipDigits_append inside (exponent_ends second delimited)]
    exact afterDigits_complete second delimited

theorem fraction_ends {fraction tail rest : Bytes} (first : Fraction fraction)
    (second : Exponent tail) (delimited : Delimited rest) :
    startsWithDigit (fraction ++ (tail ++ rest)) = false := by
  cases first with
  | absent =>
    rw [List.nil_append]
    exact exponent_ends second delimited
  | digits _ _ => rfl

theorem number_complete {v rest : Bytes} (magnitude : Magnitude v) (delimited : Delimited rest) :
    number (v ++ rest) = .ok rest := by
  obtain ⟨whole,second,third⟩ := magnitude
  rename_i whole fraction exponent
  have ends := fraction_ends second third delimited
  have after := afterWhole_complete second third delimited
  rw [List.append_assoc,List.append_assoc]
  cases whole with
  | zero =>
    rw [List.cons_append,List.nil_append,number]
    simp only [show digit? (ascii '0') = some 0 by decide,ends,Bool.false_eq_true,if_false,after]
  | @digits lead digits digit nonzero inside =>
    rw [List.cons_append,number,skipDigits_append inside ends,after]
    split
    next none => rw [none] at digit; contradiction
    next zero => exact absurd (digit?_eq_zero zero) nonzero
    next => rfl

end NodeAudit.Json.Skip
