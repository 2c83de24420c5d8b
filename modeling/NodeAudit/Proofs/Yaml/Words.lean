import NodeAudit.Yaml.Token

/-! Plain scalars of letters, digits and minus signs: where they stand in a line, and what a reader
of plain scalars makes of them. -/
namespace NodeAudit.Yaml

/-- A character that no part of YAML has a use for of its own, unless it is a minus sign that
stands alone or in a row. -/
def wordy (c : Char) : Bool := c.isAlphanum || c == '-'

/-- What holds of the wordy characters among the first 128 holds of all. -/
theorem wordy_forall {P : Char → Prop}
    (each : ∀ n, n < 128 → wordy (Char.ofNat n) = true → P (Char.ofNat n)) (c : Char)
    (given : wordy c = true) : P c := by
  have small : c.toNat < 128 := by
    have ranges : (decide (c.val ≥ 'A'.val ∧ c.val ≤ 'Z'.val) ||
        decide (c.val ≥ 'a'.val) && decide (c.val ≤ 'z'.val) ||
        decide (c.val ≥ '0'.val) && decide (c.val ≤ '9'.val) || c == '-') = true := given
    simp only [Bool.or_eq_true,Bool.and_eq_true,decide_eq_true_eq,beq_iff_eq] at ranges
    rcases ranges with ((⟨_,upper⟩ | ⟨_,upper⟩) | ⟨_,upper⟩) | rfl
    · exact Nat.lt_of_le_of_lt (UInt32.le_iff_toNat_le.mp upper) (by decide)
    · exact Nat.lt_of_le_of_lt (UInt32.le_iff_toNat_le.mp upper) (by decide)
    · exact Nat.lt_of_le_of_lt (UInt32.le_iff_toNat_le.mp upper) (by decide)
    · decide
  have same : Char.ofNat c.toNat = c := Char.ofNat_toNat c
  have found := each c.toNat small
  rw [same] at found
  exact found given

theorem wordy_admitted (c : Char) (given : wordy c = true) : admitted c = true :=
  wordy_forall (P := fun c => admitted c = true) (by decide) c given

theorem wordy_inner (c : Char) (given : wordy c = true) : isBlank c = false ∧ isBreak c = false :=
  wordy_forall (P := fun c => isBlank c = false ∧ isBreak c = false) (by decide) c given

/-- No such character is one that has a use. -/
theorem wordy_ne {c d : Char} (given : wordy c = true) (other : wordy d = false) : c ≠ d := by
  rintro rfl
  rw [given] at other
  contradiction

theorem wordy_beq {c d : Char} (given : wordy c = true) (other : wordy d = false) : (c == d) = false :=
  beq_eq_false_iff_ne.mpr (wordy_ne given other)

/-- A character with more of its line behind it. -/
def Inline (c : Char) : Prop := c ≠ '\r' ∧ c.toNat ≠ 0x85 ∧ isBreak c = false

instance (c : Char) : Decidable (Inline c) := inferInstanceAs (Decidable (_ ∧ _))

theorem wordy_inline (c : Char) (given : wordy c = true) : Inline c :=
  wordy_forall (P := Inline) (by decide) c given

/-- The characters of one line, from a place on. -/
def spread (index line column : Nat) : List Char → List Placed
  | [] => []
  | c :: rest => ⟨c,index,line,column⟩ :: spread (index + 1) line (column + 1) rest

theorem spread_chars (index line column : Nat) (chars : List Char) :
    (spread index line column chars).map (·.char) = chars := by
  induction chars generalizing index column with
  | nil => rfl
  | cons c chars ih => rw [spread,List.map_cons,ih]

theorem spread_wordy {index line column : Nat} {chars : List Char}
    (given : ∀ c ∈ chars, wordy c = true) :
    ∀ p ∈ spread index line column chars, wordy p.char = true := by
  intro p member
  have char := List.mem_map_of_mem (f := (·.char)) member
  rw [spread_chars] at char
  exact given _ char

theorem place_inline {c : Char} (inline : Inline c) (index line column : Nat) (rest : List Char) :
    place index line column (c :: rest) =
      ⟨c,index,line,column⟩ :: place (index + 1) line (column + 1) rest := by
  obtain ⟨feed,next,ink⟩ := inline
  rw [place.eq_3 _ _ _ _ _ (fun _ same _ => feed same),if_neg (not_or.mpr ⟨feed,next⟩),ink]
  rfl

theorem place_feed (index line column : Nat) (rest : List Char) :
    place index line column ('\n' :: rest) =
      ⟨'\n',index,line,column⟩ :: place (index + 1) (line + 1) 0 rest := by
  rw [place.eq_3 _ _ _ _ _ (fun _ same _ => by contradiction)]
  rfl

theorem place_spread {chars : List Char} (inline : ∀ c ∈ chars, Inline c) (index line column : Nat)
    (rest : List Char) : place index line column (chars ++ rest) =
      spread index line column chars ++
        place (index + chars.length) line (column + chars.length) rest := by
  induction chars generalizing index column with
  | nil => rfl
  | cons c chars ih =>
    obtain ⟨first,others⟩ := List.forall_mem_cons.mp inline
    rw [List.cons_append,place_inline first,ih others,spread,List.cons_append,List.length_cons]
    simp only [Nat.add_assoc,Nat.add_comm 1]

namespace Scalar

/-- A plain scalar goes on over a word, -/
theorem plain_word (indent : Nat) {word : List Placed} (inner : ∀ p ∈ word, wordy p.char = true)
    (text : List Char) (rest : List Placed) : plain false indent .empty text (word ++ rest) =
      plain false indent .empty ((word.map (·.char)).reverse ++ text) rest := by
  induction word generalizing text with
  | nil => rfl
  | cons p word ih =>
    obtain ⟨first,others⟩ := List.forall_mem_cons.mp inner
    obtain ⟨ink,inside⟩ := wordy_inner _ first
    rw [List.cons_append,plain,ink,inside,wordy_beq first (by decide),List.map_cons,
      List.reverse_cons,List.append_assoc]
    exact ih others (p.char :: text)

/-- and ends at a colon that stands alone behind it, -/
theorem plain_colon {indent : Nat} {p : Placed} (colon : p.char = ':') {rest : List Placed}
    (ending : ends rest = true) (text : List Char) :
    plain false indent .empty text (p :: rest) = some (finish text,false,p :: rest) := by
  rw [plain,colon,ending]
  rfl

/-- or at the end of a line, if the next is not indented. -/
theorem plain_feed {indent : Nat} {p : Placed} (feed : p.char = '\n') {rest : List Placed}
    (margin : ∀ q ∈ rest.head?, q.column < indent ∧ wordy q.char = true) (text : List Char) :
    plain false indent .empty text (p :: rest) = some (finish text,true,rest) := by
  have gap : plain false indent .empty text (p :: rest) =
      plain false indent (.lines (some '\n') []) text rest := by
    rw [plain,feed]
    rfl
  rw [gap]
  cases rest with
  | nil => rfl
  | cons q rest =>
    obtain ⟨outside,given⟩ := margin q rfl
    obtain ⟨ink,inside⟩ := wordy_inner _ given
    rw [plain,ink,inside]
    simp only [Gap.isEmpty,plainEndsAt,outside,decide_true,Bool.or_false,Bool.not_false,
      Bool.and_true,Bool.true_or,Bool.false_eq_true,if_false,if_true]
    rfl

end Scalar
end NodeAudit.Yaml
