import NodeAudit.Json.Lexeme

/-! The grammar of JSON text, told without any reader. It asks nothing of how deep values are
nested, of how large numbers are, nor of what escapes inside values stand for. -/
namespace NodeAudit.Json

def Blanks (s : Bytes) : Prop := ∀ b ∈ s, Read.blank b = true

def Digits (s : Bytes) : Prop := ∀ b ∈ s, (digit? b).isSome = true

/-- The digits before a point or an exponent: zero, or digits of which the first is not zero. -/
inductive Whole : Bytes → Prop where
  | zero : Whole [ascii '0']
  | digits {first : UInt8} {rest : Bytes} (lead : (digit? first).isSome = true)
      (nonzero : first ≠ ascii '0') (inside : Digits rest) : Whole (first :: rest)

inductive Fraction : Bytes → Prop where
  | absent : Fraction []
  | digits {s : Bytes} (given : s ≠ []) (inside : Digits s) : Fraction (ascii '.' :: s)

inductive Exponent : Bytes → Prop where
  | absent : Exponent []
  | plain {letter : UInt8} {s : Bytes} (letters : letter = ascii 'e' ∨ letter = ascii 'E')
      (given : s ≠ []) (inside : Digits s) : Exponent (letter :: s)
  | signed {letter sign : UInt8} {s : Bytes} (letters : letter = ascii 'e' ∨ letter = ascii 'E')
      (signs : sign = ascii '+' ∨ sign = ascii '-') (given : s ≠ []) (inside : Digits s) :
      Exponent (letter :: sign :: s)

/-- A number without its sign. -/
inductive Magnitude : Bytes → Prop where
  | parts {whole fraction exponent : Bytes} (first : Whole whole) (second : Fraction fraction)
      (third : Exponent exponent) : Magnitude (whole ++ (fraction ++ exponent))

/-- What stands between the quotes of a string. -/
inductive Body : Bytes → Prop where
  | nil : Body []
  | plain {b : UInt8} {s : Bytes} (quote : b ≠ ascii '"') (backslash : b ≠ ascii '\\')
      (control : ¬b < 0x20) (rest : Body s) : Body (b :: s)
  | escape {e : UInt8} {s : Bytes} (known : (Read.escape? e).isSome = true) (rest : Body s) :
      Body (ascii '\\' :: e :: s)
  | unit {a b c d : UInt8} {s : Bytes} (hex : (Read.unit? a b c d).isSome = true)
      (rest : Body s) : Body (ascii '\\' :: ascii 'u' :: a :: b :: c :: d :: s)

/-- What stands between the quotes of a string, with the bytes it denotes. Escaped surrogates
denote a character two by two, and none alone. -/
inductive Spells : Bytes → Bytes → Prop where
  | nil : Spells [] []
  | plain {b : UInt8} {s t : Bytes} (quote : b ≠ ascii '"') (backslash : b ≠ ascii '\\')
      (control : ¬b < 0x20) (rest : Spells s t) : Spells (b :: s) (b :: t)
  | escape {e c : UInt8} {s t : Bytes} (known : Read.escape? e = some c) (rest : Spells s t) :
      Spells (ascii '\\' :: e :: s) (c :: t)
  | unit {a b c d : UInt8} {n : Nat} {s t : Bytes} (hex : Read.unit? a b c d = some n)
      (leads : Read.leading n = false) (trails : Read.trailing n = false) (rest : Spells s t) :
      Spells (ascii '\\' :: ascii 'u' :: a :: b :: c :: d :: s)
        (String.utf8EncodeChar (Char.ofNat n) ++ t)
  | pair {a b c d e f g h : UInt8} {m n : Nat} {s t : Bytes} (high : Read.unit? a b c d = some m)
      (leads : Read.leading m = true) (low : Read.unit? e f g h = some n)
      (trails : Read.trailing n = true) (rest : Spells s t) :
      Spells (ascii '\\' :: ascii 'u' :: a :: b :: c :: d ::
          ascii '\\' :: ascii 'u' :: e :: f :: g :: h :: s)
        (String.utf8EncodeChar (Char.ofNat (0x10000 + (m - 0xD800) * 0x400 + (n - 0xDC00))) ++ t)

/-- Values, and what may stand between the brackets of an array or the braces of an object. -/
inductive Category where
  | value
  | items
  | members

inductive Written : Category → Bytes → Prop where
  | null : Written .value (word "null")
  | true : Written .value (word "true")
  | false : Written .value (word "false")
  | positive {s : Bytes} (number : Magnitude s) : Written .value s
  | negative {s : Bytes} (number : Magnitude s) : Written .value (ascii '-' :: s)
  | text {s : Bytes} (body : Body s) : Written .value (ascii '"' :: (s ++ [ascii '"']))
  | emptyArray {s : Bytes} (inside : Blanks s) : Written .value (ascii '[' :: (s ++ [ascii ']']))
  | array {s : Bytes} (inside : Written .items s) :
      Written .value (ascii '[' :: (s ++ [ascii ']']))
  | emptyObject {s : Bytes} (inside : Blanks s) : Written .value (ascii '{' :: (s ++ [ascii '}']))
  | object {s : Bytes} (inside : Written .members s) :
      Written .value (ascii '{' :: (s ++ [ascii '}']))
  | lastItem {before v after : Bytes} (first : Blanks before) (value : Written .value v)
      (second : Blanks after) : Written .items (before ++ (v ++ after))
  | nextItem {before v after s : Bytes} (first : Blanks before) (value : Written .value v)
      (second : Blanks after) (rest : Written .items s) :
      Written .items (before ++ (v ++ (after ++ ascii ',' :: s)))
  | lastMember {before name middle gap v after : Bytes} (first : Blanks before) (body : Body name)
      (second : Blanks middle) (third : Blanks gap) (value : Written .value v)
      (fourth : Blanks after) :
      Written .members (before ++ ascii '"' :: (name ++ ascii '"' ::
        (middle ++ ascii ':' :: (gap ++ (v ++ after)))))
  | nextMember {before name middle gap v after s : Bytes} (first : Blanks before)
      (body : Body name) (second : Blanks middle) (third : Blanks gap) (value : Written .value v)
      (fourth : Blanks after) (rest : Written .members s) :
      Written .members (before ++ ascii '"' :: (name ++ ascii '"' ::
        (middle ++ ascii ':' :: (gap ++ (v ++ (after ++ ascii ',' :: s))))))

section
variable {α : Type} (denotes : Bytes → α → Prop)

/-- A member whose name and value are told by what they denote, with the blanks around it. -/
inductive Member : Bytes → String × α → Prop where
  | parts {before body middle gap v after : Bytes} {name : String} {a : α}
      (first : Blanks before) (spelled : Spells body (Utf8.bytes name)) (second : Blanks middle)
      (third : Blanks gap) (value : denotes v a) (fourth : Blanks after) :
      Member (before ++ ascii '"' :: (body ++ ascii '"' ::
        (middle ++ ascii ':' :: (gap ++ (v ++ after))))) (name,a)

inductive Members : Bytes → List (String × α) → Prop where
  | last {s : Bytes} {member : String × α} (only : Member denotes s member) : Members s [member]
  | next {s t : Bytes} {member : String × α} {members : List (String × α)}
      (first : Member denotes s member) (rest : Members t members) :
      Members (s ++ ascii ',' :: t) (member :: members)

/-- An object with its members as they stand, names repeated or not. -/
inductive Object : Bytes → List (String × α) → Prop where
  | empty {s : Bytes} (inside : Blanks s) : Object (ascii '{' :: (s ++ [ascii '}'])) []
  | members {s : Bytes} {members : List (String × α)} (inside : Members denotes s members) :
      Object (ascii '{' :: (s ++ [ascii '}'])) members

/-- A text that is one object, with the blanks around it. -/
inductive Document : Bytes → List (String × α) → Prop where
  | parts {before s after : Bytes} {members : List (String × α)} (first : Blanks before)
      (object : Object denotes s members) (second : Blanks after) :
      Document (before ++ (s ++ after)) members

variable {denotes}

theorem Member.mono {other : Bytes → α → Prop} {s : Bytes} {member : String × α}
    (written : Member denotes s member) (stronger : ∀ v, denotes v member.2 → other v member.2) :
    Member other s member := by
  obtain ⟨first,spelled,second,third,value,fourth⟩ := written
  exact .parts first spelled second third (stronger _ value) fourth

theorem Members.mono {other : Bytes → α → Prop} {s : Bytes} {members : List (String × α)}
    (written : Members denotes s members)
    (stronger : ∀ v, ∀ member ∈ members, denotes v member.2 → other v member.2) :
    Members other s members := by
  induction written with
  | last only => exact .last (only.mono fun v => stronger v _ List.mem_cons_self)
  | next first _ ih =>
    exact .next (first.mono fun v => stronger v _ List.mem_cons_self)
      (ih fun v member inside => stronger v member (List.mem_cons_of_mem _ inside))

theorem Document.mono {other : Bytes → α → Prop} {s : Bytes} {members : List (String × α)}
    (written : Document denotes s members)
    (stronger : ∀ v, ∀ member ∈ members, denotes v member.2 → other v member.2) :
    Document other s members := by
  obtain ⟨first,object,second⟩ := written
  cases object with
  | empty inside => exact .parts first (.empty inside) second
  | members inside => exact .parts first (.members (inside.mono stronger)) second

theorem Members.values {s : Bytes} {members : List (String × α)}
    (written : Members denotes s members) : ∀ member ∈ members, ∃ v, denotes v member.2 := by
  induction written with
  | last only =>
    obtain ⟨_,_,_,_,value,_⟩ := only
    rw [List.forall_mem_singleton]
    exact ⟨_,value⟩
  | next first _ ih =>
    obtain ⟨_,_,_,_,value,_⟩ := first
    exact List.forall_mem_cons.mpr ⟨⟨_,value⟩,ih⟩

theorem Object.values {s : Bytes} {members : List (String × α)}
    (written : Object denotes s members) : ∀ member ∈ members, ∃ v, denotes v member.2 := by
  cases written with
  | empty => exact fun _ inside => absurd inside List.not_mem_nil
  | members inside => exact inside.values

theorem Document.values {s : Bytes} {members : List (String × α)}
    (written : Document denotes s members) : ∀ member ∈ members, ∃ v, denotes v member.2 := by
  obtain ⟨_,object,_⟩ := written
  exact object.values

end

/-- What may follow a value. -/
def Delimited : Bytes → Prop
  | [] => True
  | b :: _ => Read.blank b = true ∨ b = ascii ',' ∨ b = ascii ']' ∨ b = ascii '}'

/-- A value denotes its own text. -/
def Verbatim (v raw : Bytes) : Prop := Written .value v ∧ raw = v

end NodeAudit.Json
