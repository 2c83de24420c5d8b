import NodeAudit.Proofs.Yaml.Words

/-! Lines of the form `key: value`, one below the other at the margin, are the tokens of one block
mapping. -/
namespace NodeAudit.Yaml

namespace Layout

theorem marker_false {c : Char} {p : Placed} (apart : (p.column == 0 && p.char == c) = false)
    (rest : List Placed) : marker c (p :: rest) = false := by
  cases rest with
  | nil => rfl
  | cons q rest =>
    cases rest with
    | nil => rfl
    | cons r rest =>
      rw [marker,apart]
      simp only [Bool.false_and]

theorem closeBlocks_inFlow (layout : Layout) (keep : Nat → Bool) :
    (layout.closeBlocks keep).inFlow = layout.inFlow := by
  rw [closeBlocks]
  split <;> rfl

theorem startsPlain_wordy {c : Char} (given : wordy c = true) {rest : List Placed}
    (apart : c = '-' → ends rest = false) : startsPlain false c rest = true := by
  by_cases minus : c = '-'
  · have ending := apart minus
    subst minus
    cases rest with
    | nil => contradiction
    | cons q rest => exact congrArg (!·) (Bool.or_eq_false_iff.mp ending).1
  · obtain ⟨ink,inside⟩ := wordy_inner c given
    obtain ⟨flow,indicator⟩ := wordy_forall (P := fun c => flowIndicator c = false ∧
      "#&*!|>\x27\"%@`".toList.contains c = false) (by decide) c given
    simp (disch := decide) only [startsPlain,beq_eq_false_iff_ne.mpr minus,wordy_beq given,ink,
      inside,flow,indicator,Bool.or_self,Bool.not_false,Bool.and_self,Bool.false_eq_true,if_false]

variable {p : Placed} {rest : List Placed}

/-- Outside of flow collections a word begins a plain scalar. -/
theorem token_plain {layout : Layout} (noted : Layout) (live : layout.expire p = some noted)
    (outside : noted.inFlow = false) (given : wordy p.char = true)
    (apart : p.char = '-' → p.column ≠ 0 ∧ ends rest = false) :
    layout.token p rest = (noted.closeBlocks (· ≤ p.column)).plainScalar p rest := by
  have opens : marker '-' (p :: rest) = false := by
    refine marker_false ?_ rest
    simp only [Bool.and_eq_false_imp,beq_iff_eq,beq_eq_false_iff_ne]
    exact fun margin dash => (apart dash).1 margin
  have finishes : marker '.' (p :: rest) = false :=
    marker_false (by rw [wordy_beq given (by decide),Bool.and_false]) rest
  have entry : (p.char == '-' && ends rest) = false := by
    simp only [Bool.and_eq_false_imp,beq_iff_eq]
    exact fun dash => (apart dash).2
  have plain := startsPlain_wordy given fun dash => (apart dash).2
  simp (disch := decide) only [token,live,Option.bind_eq_bind,Option.bind_some,closeBlocks_inFlow,
    outside,wordy_beq given,opens,finishes,entry,plain,Bool.and_false,Bool.false_and,Bool.or_self,
    Bool.false_eq_true,if_false,if_true]

theorem plainScalar_eq {layout : Layout} (noted : Layout) (notes : layout.noteKey p = some noted)
    (outside : noted.inFlow = false) {text : String} {broken : Bool} {left : List Placed}
    (read : Scalar.plain false (noted.parent.elim 0 (· + 1)) .empty [] (p :: rest) =
      some (text,broken,left)) : layout.plainScalar p rest =
        some { noted.add (.scalar true text) with rest := left, keyAllowed := broken } := by
  rw [plainScalar,notes]
  simp only [Option.bind_eq_bind,Option.bind_some,outside]
  cases parent : noted.parent with
  | none | some n =>
    rw [parent] at read
    exact Option.bind_eq_some_iff.mpr ⟨_,read,rfl⟩

theorem skip_ink (ink : isBlank p.char = false) (inside : isBreak p.char = false)
    (mark : p.char ≠ Utf8.mark) (hash : p.char ≠ '#') (allowed : Bool) (rest : List Placed) :
    skip false false allowed (p :: rest) = (allowed,p :: rest) := by
  have blank : p.char ≠ ' ' ∧ p.char ≠ '\t' := by
    simpa only [isBlank,Bool.or_eq_false_iff,beq_eq_false_iff_ne] using ink
  simp only [skip,inside,blank,mark,hash,false_and,or_self,Bool.false_eq_true,if_false]

theorem skip_wordy (given : wordy p.char = true) (allowed : Bool) (rest : List Placed) :
    skip false false allowed (p :: rest) = (allowed,p :: rest) := by
  obtain ⟨ink,inside⟩ := wordy_inner _ given
  exact skip_ink ink inside (wordy_ne given (by decide)) (wordy_ne given (by decide)) allowed rest

theorem run_step {layout next : Layout} {allowed : Bool} {fuel : Nat}
    (skipped : skip layout.inFlow false layout.keyAllowed layout.rest = (allowed,p :: rest))
    (step : token { layout with keyAllowed := allowed } p rest = some next) :
    run (fuel + 1) layout = run fuel next := by
  rw [run,skipped]
  show (token _ p rest >>= _) = _
  rw [step]
  rfl

/-- Either no block is open, or one at the margin. -/
def Margin (indents : List Nat) : Prop := indents = [] ∨ indents = [0]

theorem closeBlocks_margin {layout : Layout} (margin : Margin layout.indents) (column : Nat) :
    layout.closeBlocks (· ≤ column) = layout := by
  have kept : closing (fun indent => decide (indent ≤ column)) layout.indents layout.reversed =
      (layout.indents,layout.reversed) := by
    rcases margin with none | one
    · rw [none]
      rfl
    · rw [one,closing,decide_eq_true (Nat.zero_le _)]
      rfl
  rw [closeBlocks,kept]
  split <;> rfl

/-- The layout behind a word that may be a key. -/
def keyed (rest : List Placed) (name : Token) (reversed : List Token) (indents : List Nat)
    (start : Placed) : Layout where
  rest := rest
  reversed := name :: reversed
  indents := indents
  keyAllowed := false
  possibleKey := some ⟨reversed.length,indents.head? == some 0,start⟩

/-- The layout behind a colon, in a block mapping at the margin. -/
def awaiting (rest : List Placed) (reversed : List Token) : Layout :=
  { rest, reversed, indents := [0], keyAllowed := false }

variable {reversed : List Token} {indents : List Nat} {c : Char} {chars : List Char}
  {index line column : Nat}

/-- A word at the margin may be a key. -/
theorem run_key (margin : Margin indents) (word : ∀ d ∈ c :: chars, wordy d = true)
    (letter : c ≠ '-') (colon : p.char = ':') (ending : ends rest = true) (fuel : Nat) :
    run (fuel + 1) { rest := spread index line 0 (c :: chars) ++ p :: rest, reversed, indents } =
      run fuel (keyed (p :: rest) (.scalar true (String.ofList (c :: chars))) reversed indents
        ⟨c,index,line,0⟩) := by
  have first := word c List.mem_cons_self
  have read (indent : Nat) : Scalar.plain false indent .empty []
      (spread index line 0 (c :: chars) ++ p :: rest) =
        some (String.ofList (c :: chars),false,p :: rest) := by
    rw [Scalar.plain_word indent (spread_wordy word),Scalar.plain_colon colon ending,spread_chars,
      List.append_nil,finish,List.reverse_reverse]
  refine run_step (skip_wordy first true _) ?_
  rw [token_plain _ rfl rfl first fun same => absurd same letter,closeBlocks_margin margin]
  exact plainScalar_eq { rest := _, reversed, indents, possibleKey := some _ } rfl rfl (read _)

/-- The token that opens a block mapping at the margin, if none is open. -/
def opening : List Nat → List Token
  | [] => [.blockMapping]
  | _ :: _ => []

theorem insert_behind (layout : Layout) (front back : List Token) (token : Token)
    (same : layout.reversed = front ++ back) :
    layout.insert back.length token = { layout with reversed := front ++ token :: back } := by
  have later : (front ++ back).length - back.length = front.length := by
    rw [List.length_append,Nat.add_sub_cancel]
  simp only [insert,same,later,List.take_left,List.drop_left]

theorem valueIndicator_keyed (margin : Margin indents) (name : Token) {start : Placed}
    (first : start.column = 0) (old : List Placed) :
    (keyed old name reversed indents start).valueIndicator p rest =
      some (awaiting rest (.value :: name :: .key :: (opening indents ++ reversed))) := by
  have inserted := insert_behind (keyed old name reversed indents start) [name] reversed .key rfl
  have again := insert_behind { keyed old name reversed indents start with
    reversed := [name,.key] ++ reversed } [name,.key] reversed .blockMapping rfl
  simp only [valueIndicator,keyed,first] at inserted again ⊢
  rw [inserted]
  rcases margin with rfl | rfl
  · simp only [openBlock,List.cons_append,List.nil_append] at again ⊢
    rw [again]
    rfl
  · rfl

/-- A colon close behind a word makes a key of it. -/
theorem run_colon (margin : Margin indents) (name : Token) {start : Placed}
    (first : start.column = 0) (near : start.line = line ∧ index ≤ start.index + 1024)
    (ending : ends rest = true) (fuel : Nat) :
    run (fuel + 1) (keyed (⟨':',index,line,column⟩ :: rest) name reversed indents start) =
      run fuel (awaiting rest (.value :: name :: .key :: (opening indents ++ reversed))) := by
  have live (required : Bool) :
      PossibleKey.expired ⟨reversed.length,required,start⟩ ⟨':',index,line,column⟩ = false := by
    simp only [PossibleKey.expired,near.1,Nat.lt_irrefl,Nat.not_lt.mpr near.2,decide_false,
      Bool.or_self]
  have kept (old : List Placed) : (keyed old name reversed indents start).expire
      ⟨':',index,line,column⟩ = some (keyed old name reversed indents start) := by
    simp only [expire,keepKey,keyed,live]
    rfl
  have closed (old : List Placed) : (keyed old name reversed indents start).closeBlocks
      (· ≤ column) = keyed old name reversed indents start := closeBlocks_margin margin column
  have opens : marker '-' (⟨':',index,line,column⟩ :: rest) = false :=
    marker_false (Bool.and_false _) rest
  have finishes : marker '.' (⟨':',index,line,column⟩ :: rest) = false :=
    marker_false (Bool.and_false _) rest
  refine run_step (skip_ink rfl rfl (show ':' ≠ Utf8.mark by decide) (show ':' ≠ '#' by decide)
    false rest) ?_
  show token (keyed _ name reversed indents start) _ _ = _
  simp only [token,kept,Option.bind_eq_bind,Option.bind_some,closed,opens,finishes,ending,
    Char.reduceBEq,Bool.and_false,Bool.and_true,Bool.false_and,Bool.or_true,Bool.false_eq_true,
    if_false,if_true]
  exact valueIndicator_keyed margin name first _

theorem ends_word (given : ∀ d ∈ chars, wordy d = true) (some : chars ≠ []) (rest : List Placed) :
    ends (spread index line column chars ++ rest) = false := by
  cases chars with
  | nil => exact absurd rfl some
  | cons d chars =>
    obtain ⟨ink,inside⟩ := wordy_inner d (given d List.mem_cons_self)
    exact Bool.or_eq_false_iff.mpr ⟨ink,inside⟩

/-- A word behind a colon is a value. After its line a key may begin. -/
theorem run_value (word : ∀ d ∈ c :: chars, wordy d = true) (alone : c = '-' → chars ≠ [])
    (inside : column ≠ 0) (feed : p.char = '\n')
    (margin : ∀ q ∈ rest.head?, q.column < 1 ∧ wordy q.char = true) (blank : Placed)
    (space : blank.char = ' ') (fuel : Nat) :
    run (fuel + 1)
        (awaiting (blank :: (spread index line column (c :: chars) ++ p :: rest)) reversed) =
      run fuel { rest, reversed := .scalar true (String.ofList (c :: chars)) :: reversed,
                 indents := [0] } := by
  obtain ⟨first,others⟩ := List.forall_mem_cons.mp word
  have read : Scalar.plain false 1 .empty [] (spread index line column (c :: chars) ++ p :: rest) =
      some (String.ofList (c :: chars),true,rest) := by
    rw [Scalar.plain_word 1 (spread_wordy word),Scalar.plain_feed feed margin,spread_chars,
      List.append_nil,finish,List.reverse_reverse]
  have skipped : skip false false false (blank :: (spread index line column (c :: chars) ++ p :: rest)) =
      (false,spread index line column (c :: chars) ++ p :: rest) := by
    rw [skip,space]
    exact skip_wordy first false _
  refine run_step skipped ?_
  show token (awaiting _ reversed) _ (spread (index + 1) line (column + 1) chars ++ p :: rest) = _
  rw [token_plain _ rfl rfl first fun same => ⟨inside,ends_word others (alone same) _⟩,
    closeBlocks_margin (.inr rfl)]
  exact plainScalar_eq (awaiting _ reversed) rfl rfl read

end Layout

def lineOf (entry : String × String) : String := entry.1 ++ ": " ++ entry.2 ++ "\n"

/-- A name of letters and a value of one word. -/
structure Linear (entry : String × String) : Prop where
  given : entry.1 ≠ ""
  short : entry.1.length ≤ 128
  letters : ∀ c ∈ entry.1.toList, c.isAlpha = true
  word : ∀ c ∈ entry.2.toList, wordy c = true
  some : entry.2 ≠ ""
  apart : entry.2 ≠ "-"

def tokensOf (entry : String × String) : List Token :=
  [.key,.scalar true entry.1,.value,.scalar true entry.2]

theorem wordy_letter {c : Char} (letter : c.isAlpha = true) : wordy c = true ∧ c ≠ '-' := by
  refine ⟨by simp [wordy,Char.isAlphanum,letter],?_⟩
  rintro rfl
  contradiction

theorem toList_cons {s : String} (given : s ≠ "") :
    ∃ c chars, s.toList = c :: chars ∧ s = String.ofList (c :: chars) := by
  cases shape : s.toList with
  | nil => exact absurd (String.toList_eq_nil_iff.mp shape) given
  | cons c chars => exact ⟨c,chars,rfl,by rw [← shape,String.ofList_toList]⟩

/-- Below a line stands nothing, or a word at the margin. -/
def Below (chars : List Char) : Prop := ∀ c ∈ chars.head?, wordy c = true

theorem place_below {chars : List Char} (below : Below chars) (index line : Nat) :
    ∀ q ∈ (place index line 0 chars).head?, q.column < 1 ∧ wordy q.char = true := by
  cases chars with
  | nil => exact fun q impossible => by contradiction
  | cons c chars =>
    have given := below c rfl
    rw [place_inline (wordy_inline c given)]
    rintro q same
    obtain rfl := Option.some.inj same
    exact ⟨Nat.zero_lt_one,given⟩

/-- The characters of a line in their places, with those below it. -/
theorem place_line {name value : List Char} (letters : ∀ c ∈ name, wordy c = true)
    (word : ∀ c ∈ value, wordy c = true) (more : List Char) (index line : Nat) :
    ∃ behind next, behind = index + name.length ∧
      place index line 0 (name ++ ':' :: ' ' :: (value ++ '\n' :: more)) =
        spread index line 0 name ++ ⟨':',behind,line,name.length⟩ ::
          ⟨' ',behind + 1,line,name.length + 1⟩ ::
            (spread (behind + 1 + 1) line (name.length + 1 + 1) value ++
              ⟨'\n',next,line,name.length + 1 + 1 + value.length⟩ ::
                place (next + 1) (line + 1) 0 more) := by
  refine ⟨_,index + name.length + 1 + 1 + value.length,rfl,?_⟩
  rw [place_spread fun c member => wordy_inline c (letters c member),place_inline (by decide),
    place_inline (by decide),place_spread fun c member => wordy_inline c (word c member),place_feed]
  rw [Nat.zero_add]

theorem lineOf_append (entry : String × String) (more : List Char) : (lineOf entry).toList ++ more =
    entry.1.toList ++ ':' :: ' ' :: (entry.2.toList ++ '\n' :: more) := by
  simp [lineOf]

theorem Linear.name_word {entry : String × String} (linear : Linear entry) :
    ∀ c ∈ entry.1.toList, wordy c = true :=
  fun c member => (wordy_letter (linear.letters c member)).1

theorem below_lines {lines : List (String × String)} (linear : ∀ entry ∈ lines, Linear entry) :
    Below (lines.flatMap fun entry => (lineOf entry).toList) := by
  cases lines with
  | nil => exact fun _ impossible => by contradiction
  | cons entry lines =>
    have own := linear entry List.mem_cons_self
    obtain ⟨c,chars,name,-⟩ := toList_cons own.given
    have letter := own.letters c (by rw [name]; exact List.mem_cons_self)
    rintro d same
    simp only [List.flatMap_cons,lineOf,String.toList_append,name,List.cons_append,
      List.head?_cons] at same
    obtain rfl := Option.some.inj same
    exact (wordy_letter letter).1

namespace Layout

/-- A line is read in three steps. -/
theorem run_line {indents : List Nat} (margin : Margin indents) {entry : String × String}
    (linear : Linear entry) {more : List Char} (below : Below more) (index line : Nat)
    (reversed : List Token) (fuel : Nat) : ∃ next,
      run (fuel + 3) { rest := place index line 0 ((lineOf entry).toList ++ more), reversed, indents } =
        run fuel { rest := place next (line + 1) 0 more,
                   reversed := (tokensOf entry).reverse ++ (opening indents ++ reversed),
                   indents := [0] } := by
  obtain ⟨c,chars,name,own⟩ := toList_cons linear.given
  obtain ⟨d,digits,value,same⟩ := toList_cons linear.some
  have short := linear.short
  have letters := linear.letters
  have word := linear.word
  rw [← String.length_toList,name] at short
  rw [name] at letters
  rw [value] at word
  have words : ∀ e ∈ c :: chars, wordy e = true := name ▸ linear.name_word
  have alone : d = '-' → digits ≠ [] := by
    rintro rfl rfl
    exact linear.apart same
  obtain ⟨behind,next,near,placed⟩ := place_line words word more index line
  have close : (⟨c,index,line,0⟩ : Placed).line = line ∧ behind ≤ index + 1024 :=
    ⟨rfl,by omega⟩
  have lettered := (wordy_letter (letters c List.mem_cons_self)).2
  refine ⟨next + 1,?_⟩
  rw [lineOf_append,name,value,placed,run_key margin words lettered rfl rfl,run_colon margin _ rfl close rfl,
    run_value word alone (by omega) rfl (place_below below _ _) _ rfl,tokensOf,own,same]
  rfl

theorem run_lines {lines : List (String × String)} (linear : ∀ entry ∈ lines, Linear entry)
    (index line : Nat) (reversed : List Token) {fuel : Nat} (enough : 3 * lines.length < fuel) :
    run fuel { rest := place index line 0 (lines.flatMap fun entry => (lineOf entry).toList),
               reversed, indents := [0] } =
      some (reversed.reverse ++ (lines.flatMap tokensOf ++ [.blockEnd])) := by
  induction lines generalizing index line reversed fuel with
  | nil =>
    obtain ⟨fuel,rfl⟩ := Nat.exists_eq_add_of_le' enough
    simp only [List.flatMap_nil,List.nil_append]
    rw [← List.reverse_cons]
    rfl
  | cons entry lines ih =>
    obtain ⟨own,others⟩ := List.forall_mem_cons.mp linear
    rw [List.length_cons] at enough
    obtain ⟨fuel,rfl⟩ := Nat.exists_eq_add_of_le' (show 3 ≤ fuel by omega)
    obtain ⟨next,step⟩ := run_line (.inr rfl) own (below_lines others) index line reversed fuel
    rw [List.flatMap_cons,step,ih others next (line + 1) _ (by omega),List.flatMap_cons]
    simp only [opening,List.nil_append,List.reverse_append,List.reverse_reverse,List.append_assoc]

end Layout

/-- No line has fewer characters than it takes steps to read. -/
theorem length_lines {lines : List (String × String)} (linear : ∀ entry ∈ lines, Linear entry)
    (index line : Nat) : 3 * lines.length ≤
      (place index line 0 (lines.flatMap fun entry => (lineOf entry).toList)).length := by
  induction lines generalizing index line with
  | nil => exact Nat.zero_le _
  | cons entry lines ih =>
    obtain ⟨own,others⟩ := List.forall_mem_cons.mp linear
    obtain ⟨behind,next,-,placed⟩ := place_line own.name_word own.word
      (lines.flatMap fun entry => (lineOf entry).toList) index line
    have rest := ih others (next + 1) (line + 1)
    rw [List.flatMap_cons,lineOf_append,placed]
    simp only [List.length_append,List.length_cons]
    omega

theorem tokens_lines {lines : List (String × String)} (linear : ∀ entry ∈ lines, Linear entry)
    (given : lines ≠ []) :
    tokens (place 0 0 0 (lines.flatMap fun entry => (lineOf entry).toList)) =
      some (.blockMapping :: (lines.flatMap tokensOf ++ [.blockEnd])) := by
  have enough := length_lines linear 0 0
  rw [tokens]
  generalize same : (place 0 0 0 _).length = length at enough ⊢
  cases lines with
  | nil => contradiction
  | cons entry lines =>
    obtain ⟨own,others⟩ := List.forall_mem_cons.mp linear
    rw [List.length_cons] at enough
    obtain ⟨fuel,rfl⟩ := Nat.exists_eq_add_of_le' (show 2 ≤ length by omega)
    obtain ⟨next,step⟩ := Layout.run_line (.inl rfl) own (below_lines others) 0 0 [] fuel
    rw [List.flatMap_cons,step,Layout.run_lines others next 1 _ (by omega)]
    rfl

end NodeAudit.Yaml
