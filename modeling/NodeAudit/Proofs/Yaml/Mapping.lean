import Mathlib.Data.List.Forall2
import NodeAudit.Proofs.Text.Utf8
import NodeAudit.Proofs.Yaml.Core
import NodeAudit.Proofs.Yaml.Lines
import NodeAudit.Yaml.Document

/-! Settings written as one line each are read as the map of them. -/
namespace NodeAudit.Yaml

namespace Node

/-- A plain scalar without properties. -/
def ofWord (word : String) : Node := .scalar {} true word

def memberOf (entry : String × String) : Node × Node := (ofWord entry.1,ofWord entry.2)

theorem read_word (handles : Handles) (depth : Nat) (position : Position) (word : String)
    (rest : List Token) :
    read handles (depth + 1) position (.scalar true word :: rest) = some (ofWord word,rest) := by
  cases position <;> rfl

theorem blockMembers_lines (handles : Handles) (depth : Nat) (lines : List (String × String))
    {fuel : Nat} (enough : lines.length < fuel) :
    blockMembers (read handles (depth + 1)) fuel (lines.flatMap tokensOf ++ [.blockEnd]) =
      some (lines.map memberOf,[]) := by
  induction lines generalizing fuel with
  | nil => cases fuel <;> rfl
  | cons entry lines ih =>
    cases fuel with
    | zero => contradiction
    | succ fuel =>
      have rest := ih (Nat.lt_of_succ_lt_succ enough)
      simp only [List.flatMap_cons,tokensOf,List.cons_append,List.nil_append,blockMembers,orEmpty,
        memberValue,endsMember,read_word,Option.bind_eq_bind,Option.bind_some,Bool.false_eq_true,
        if_false] at rest ⊢
      rw [rest]
      rfl

theorem length_tokens (lines : List (String × String)) :
    (lines.flatMap tokensOf).length = 4 * lines.length := by
  induction lines with
  | nil => rfl
  | cons entry lines ih =>
    rw [List.flatMap_cons,List.length_append,ih,List.length_cons,Nat.mul_succ,Nat.add_comm]
    rfl

theorem ofTokens?_lines (lines : List (String × String)) :
    ofTokens? (.blockMapping :: (lines.flatMap tokensOf ++ [.blockEnd])) =
      some (.mapping {} (lines.map memberOf)) := by
  generalize inside : lines.flatMap tokensOf ++ [Token.blockEnd] = tokens
  have long : lines.length < tokens.length + 2 := by
    rw [← inside,List.length_append,length_tokens]
    omega
  have members := blockMembers_lines Handles.usual tokens.length lines long
  rw [inside] at members
  have node : root (.blockMapping :: tokens) = some (.mapping {} (lines.map memberOf),[]) := by
    show (blockMembers (read Handles.usual (tokens.length + 1)) (tokens.length + 2) tokens >>= _) = _
    rw [members]
    rfl
  rw [ofTokens?.eq_2 _ (List.cons_ne_nil _ _),node]
  rfl

end Node

theorem name_word (context : Context) {word : String} (given : word ≠ "") :
    name context (.ofWord word) = pure word := by
  have some : (Node.ofWord word).isEmpty = false :=
    Bool.eq_false_iff.mpr fun none => given (String.isEmpty_iff.mp none)
  have key : nameOfKey (.ofWord word) = Option.some word := by
    show (if (Node.ofWord word).isEmpty then none else Option.some word) = _
    rw [some]
    rfl
  show (nameOfKey (.ofWord word) : StateT Nat Option String) = _
  rw [key]
  rfl

theorem value_word (context : Context) (depth : Nat) {word : String} {v : Json}
    (plain : Core.plain word = some v) : value context depth (.ofWord word) = pure v := by
  have scalar : (Core.scalar none true word : StateT Nat Option Json) = pure v := by
    rw [Core.scalar]
    simp only [if_true,plain]
    rfl
  cases depth with
  | zero => exact scalar
  | succ depth => exact scalar

/-- A line stands for a member of its name, of which its value is a word. -/
def StandsFor (entry : String × String) (member : String × Json) : Prop :=
  entry.1 = member.1 ∧ entry.1 ≠ "" ∧ Core.plain entry.2 = some member.2

theorem members_lines (context : Context) (depth : Nat) {lines : List (String × String)}
    {list : List (String × Json)} (stands : List.Forall₂ StandsFor lines list) :
    members context (value context depth) (lines.map Node.memberOf) = pure (.ofList list) := by
  suffices run : ∀ map : SortedMap Json, (lines.map Node.memberOf).foldlM (fun map entry => do
      let key ← name context entry.1
      return map.insert key (← value context depth entry.2)) map =
        (pure (list.foldl (fun map entry => map.insert entry.1 entry.2) map) :
          StateT Nat Option (SortedMap Json)) from run .empty
  induction stands with
  | nil => exact fun _ => rfl
  | @cons entry member lines list head _ ih =>
    intro map
    obtain ⟨same,given,plain⟩ := head
    rw [List.map_cons,List.foldlM_cons,Node.memberOf,name_word context given,
      value_word context depth plain]
    simp only [pure_bind]
    rw [ih,List.foldl_cons,same]

def linesText (lines : List (String × String)) : Bytes :=
  lines.flatMap fun entry => Utf8.bytes (lineOf entry)

theorem characters?_lines {lines : List (String × String)} (linear : ∀ entry ∈ lines, Linear entry) :
    characters? (linesText lines) =
      some (place 0 0 0 (lines.flatMap fun entry => (lineOf entry).toList)) := by
  have chars := (Utf8.chars_eq_some_iff (linesText lines)
    (lines.flatMap fun entry => (lineOf entry).toList)).mpr (by
      rw [Utf8.encode,List.flatMap_assoc]
      rfl)
  have admits : (lines.flatMap fun entry => (lineOf entry).toList).all admitted = true := by
    rw [List.all_flatMap,List.all_eq_true]
    intro entry member
    have words := linear entry member
    have name : entry.1.toList.all admitted = true :=
      List.all_eq_true.mpr fun c inside => wordy_admitted c (words.name_word c inside)
    have value : entry.2.toList.all admitted = true :=
      List.all_eq_true.mpr fun c inside => wordy_admitted c (words.word c inside)
    simp only [lineOf,String.toList_append,List.all_append,name,value,Bool.true_and,Bool.and_true]
    decide
  rw [characters?,chars]
  show (if _ = true then _ else _) = _
  rw [admits]
  rfl

/-- Lines of settings are read as a YAML document with the last of each name. -/
theorem parse_lines {lines : List (String × String)} {list : List (String × Json)}
    (linear : ∀ entry ∈ lines, Linear entry) (given : lines ≠ [])
    (stands : List.Forall₂ StandsFor lines list) : parse (linesText lines) = some (.ofList list) := by
  have root : settings? (.mapping {} (lines.map Node.memberOf)) = some (.ofList list) := by
    rw [settings?]
    simp only [members_lines _ _ stands]
    rfl
  rw [parse,characters?_lines linear]
  show (tokens _ >>= _) = _
  rw [tokens_lines linear given]
  show (Node.ofTokens? _ >>= _) = _
  rw [Node.ofTokens?_lines]
  exact root

/-- A name of 1 to 128 ASCII letters. -/
def Lettered (name : String) : Prop :=
  1 ≤ name.length ∧ name.length ≤ 128 ∧ ∀ c ∈ name.toList, c.isAlpha = true

instance (name : String) : Decidable (Lettered name) :=
  decidable_of_iff (1 ≤ name.length ∧ name.length ≤ 128 ∧ name.toList.all Char.isAlpha = true)
    (by rw [Lettered,List.all_eq_true])

/-- A block mapping of settings, a line for each. -/
def blockText (settings : List (String × Json)) : Bytes :=
  settings.flatMap fun setting => Utf8.bytes (setting.1 ++ ": " ++ wordOf setting.2 ++ "\n")

theorem signedDecimal_word (i : Int) :
    (∀ c ∈ (signedDecimal i).toList, wordy c = true) ∧ signedDecimal i ≠ "-" := by
  have each : ∀ d, d < 10 → wordy (digitChar d) = true := by decide
  have chars : ∀ c ∈ (digits i.natAbs).map digitChar, wordy c = true := by
    rw [List.forall_mem_map]
    exact fun d member => each d (digits_lt_ten _ d member)
  obtain ⟨d,ds,shape,small,-⟩ := Numeral.digits_chars i.natAbs
  constructor
  · rw [Numeral.toList_signedDecimal]
    split
    next => exact List.forall_mem_cons.mpr ⟨rfl,chars⟩
    next => exact chars
  · intro same
    have lone := congrArg String.toList same
    rw [Numeral.toList_signedDecimal,shape] at lone
    split at lone
    next => simp at lone
    next => exact (Numeral.digitChar_ne small).2.1 (List.cons.inj lone).1

theorem wordOf_word {v : Json} (common : Common v) :
    (∀ c ∈ (wordOf v).toList, wordy c = true) ∧ wordOf v ≠ "" ∧ wordOf v ≠ "-" := by
  cases common with
  | boolean b => cases b <;> exact ⟨List.all_eq_true.mp (by decide),by decide,by decide⟩
  | whole i bounded =>
    obtain ⟨word,apart⟩ := signedDecimal_word i
    exact ⟨word,signedDecimal_ne i rfl,apart⟩

theorem linear_setting {setting : String × Json} (name : Lettered setting.1)
    (common : Common setting.2) : Linear (setting.1,wordOf setting.2) := by
  obtain ⟨given,short,letters⟩ := name
  obtain ⟨word,some,apart⟩ := wordOf_word common
  refine ⟨?_,short,letters,word,some,apart⟩
  rintro (none : setting.1 = "")
  rw [none] at given
  contradiction

/-- The block mapping of settings is read as the map of them. -/
theorem parse_blockText {settings : List (String × Json)} (given : settings ≠ [])
    (names : ∀ setting ∈ settings, Lettered setting.1)
    (common : ∀ setting ∈ settings, Common setting.2) :
    parse (blockText settings) = some (.ofList settings) := by
  have text : blockText settings = linesText (settings.map fun s => (s.1,wordOf s.2)) := by
    rw [linesText,List.flatMap_map]
    rfl
  rw [text]
  refine parse_lines ?_ (fun none => given (List.map_eq_nil_iff.mp none)) ?_
  · rw [List.forall_mem_map]
    exact fun setting member => linear_setting (names setting member) (common setting member)
  · rw [List.forall₂_map_left_iff,List.forall₂_same]
    exact fun setting member => ⟨rfl,(linear_setting (names setting member)
      (common setting member)).given,plain_wordOf (common setting member)⟩

end NodeAudit.Yaml
