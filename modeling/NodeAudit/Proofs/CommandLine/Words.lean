import Mathlib.Data.List.TakeDrop
import Mathlib.Data.List.TakeWhile
import NodeAudit.CommandLine.Arguments

/-! What the words of a command line say. A label is known by its key, and settings are read from
every way in which they may be spelled, on both sides of the command. -/
namespace NodeAudit.CommandLine

theorem splitAt_free {text : String} (free : '=' ∉ text.toList) :
    splitAt '=' text = (text,none) := by
  have inside : ∀ c ∈ text.toList, decide (c ≠ '=') = true := by
    intro c member
    exact decide_eq_true fun same => free (same ▸ member)
  simp only [splitAt,List.span_eq_takeWhile_dropWhile,List.takeWhile_eq_self_iff.mpr inside,
    List.dropWhile_eq_nil_iff.mpr inside,String.ofList_toList,List.head?_nil,Option.map_none]

theorem splitAt_marked {key : String} (free : '=' ∉ key.toList) (value : String) :
    splitAt '=' (key ++ "=" ++ value) = (key,some value) := by
  have inside : ∀ c ∈ key.toList, decide (c ≠ '=') = true := by
    intro c member
    exact decide_eq_true fun same => free (same ▸ member)
  have text : (key ++ "=" ++ value).toList = key.toList ++ '=' :: value.toList := by simp
  simp only [splitAt,List.span_eq_takeWhile_dropWhile,text,List.takeWhile_append_of_pos inside,
    List.dropWhile_append_of_pos inside]
  simp

/-- A text has no mark in it, or it may be cut at the first one. -/
theorem exists_cut (text : String) : '=' ∉ text.toList ∨
    ∃ key value : String, '=' ∉ key.toList ∧ text = key ++ "=" ++ value := by
  by_cases marked : '=' ∈ text.toList
  · right
    obtain ⟨before,after,split,free⟩ := List.eq_append_cons_of_mem marked
    refine ⟨String.ofList before,String.ofList after,by simpa using free,?_⟩
    rw [← String.toList_inj,split]
    simp
  · exact .inl marked

/-- A word that names a label by its key, with a value that may be left out. -/
inductive Names : String → String → String → Prop where
  | bare {key : String} (given : key ≠ "") (free : '=' ∉ key.toList) : Names key key ""
  | valued {key : String} (value : String) (given : key ≠ "") (free : '=' ∉ key.toList) :
      Names (key ++ "=" ++ value) key value

theorem label?_eq_some_iff (text key value : String) :
    label? text = some (key,value) ↔ Names text key value := by
  constructor
  · intro read
    rcases exists_cut text with free | ⟨name,rest,free,rfl⟩
    · rw [label?,splitAt_free free] at read
      simp only [Option.ite_none_left_eq_some] at read
      obtain ⟨given,same⟩ := read
      cases same
      apply Names.bare _ free
      simpa using given
    · rw [label?,splitAt_marked free] at read
      simp only [Option.ite_none_left_eq_some] at read
      obtain ⟨given,same⟩ := read
      cases same
      apply Names.valued _ _ free
      simpa using given
  · intro names
    cases names with
    | bare given free =>
      rw [label?,splitAt_free free]
      simpa using given
    | valued value given free =>
      rw [label?,splitAt_marked free]
      simpa using given

theorem head?_ne_mark {key : String} (free : '=' ∉ key.toList) : key.toList.head? ≠ some '=' :=
  fun first => free (List.mem_of_mem_head? first)

/-- Every word names a label but the empty one and those that begin with the mark. -/
theorem exists_names_iff (text : String) : (∃ key value, Names text key value) ↔
    text ≠ "" ∧ text.toList.head? ≠ some '=' := by
  constructor
  · rintro ⟨key,value,names⟩
    cases names with
    | bare given free => exact ⟨given,head?_ne_mark free⟩
    | valued value given free =>
      obtain ⟨c,rest,shape⟩ := List.exists_cons_of_ne_nil (show key.toList ≠ [] by simpa using given)
      have first := head?_ne_mark free
      rw [shape] at first
      constructor
      · intro none
        have nothing := congrArg String.toList none
        simp at nothing
      · simpa [shape] using first
  · rintro ⟨given,begins⟩
    rcases exists_cut text with free | ⟨key,value,free,rfl⟩
    · exact ⟨text,"",.bare given free⟩
    · refine ⟨key,value,.valued value ?_ free⟩
      rintro rfl
      simp at begins

namespace Setting

theorem name_free (setting : Setting) : '=' ∉ setting.name.toList := by
  cases setting <;> decide

theorem name_injective {a b : Setting} (same : a.name = b.name) : a = b := by
  cases a <;> cases b <;> first | rfl | exact absurd same (by decide)

theorem find?_name {allowed : List Setting} {setting : Setting} (known : setting ∈ allowed) :
    allowed.find? (fun other => other.name = setting.name) = some setting := by
  cases found : allowed.find? (fun other => other.name = setting.name) with
  | none =>
    have other := List.find?_eq_none.mp found setting known
    simp at other
  | some other =>
    have same := List.find?_some found
    rw [name_injective (of_decide_eq_true same)]

theorem name_shape (setting : Setting) :
    ∃ c rest, setting.name.toList = '-' :: '-' :: c :: rest ∧ c ≠ 'v' ∧ c ≠ 'h' := by
  cases setting <;> exact ⟨_,_,rfl,by decide,by decide⟩

end Setting

/-- A word that is read as an option with a name of its own. -/
structure Optional (word : String) : Prop where
  dashed : dashed word = true
  version : asksVersion word = false
  help : asksHelp word = false
  other : word ≠ "--"

/-- What begins with the name of a setting is an option, and asks for neither version nor help. -/
theorem Setting.name_option (setting : Setting) (rest : String) :
    Optional (setting.name ++ rest) := by
  obtain ⟨c,tail,shape,version,help⟩ := setting.name_shape
  have whole : (setting.name ++ rest).toList = '-' :: '-' :: c :: (tail ++ rest.toList) := by
    rw [String.toList_append,shape]
    rfl
  have third {text : String} {d : Char} {others : List Char}
      (shape : text.toList = '-' :: '-' :: d :: others) (apart : c ≠ d) :
      (setting.name ++ rest == text) = false := by
    apply beq_eq_false_iff_ne.mpr
    rintro same
    rw [same,shape] at whole
    exact apart (List.cons.inj (List.cons.inj (List.cons.inj whole).2).2).1.symm
  constructor
  · rw [CommandLine.dashed,whole]
    rfl
  · rw [asksVersion,third rfl version,whole]
    rfl
  · rw [asksHelp,third rfl help,whole]
    rfl
  · intro same
    rw [same] at whole
    exact absurd (List.cons.inj (List.cons.inj whole).2).2.symm (List.cons_ne_nil _ _)

/-- The words for a setting and its value. -/
inductive Spells : Setting → String → List String → Prop where
  | joined {setting : Setting} (takes : setting.takesValue = true) (value : String) :
      Spells setting value [setting.name ++ "=" ++ value]
  | apart {setting : Setting} {value : String} (takes : setting.takesValue = true)
      (plain : dashed value = false) : Spells setting value [setting.name,value]
  | switch {setting : Setting} (bare : setting.takesValue = false) :
      Spells setting "" [setting.name]

/-- The words for some settings, one after another. -/
inductive SpellsAll : List (Setting × String) → List String → Prop where
  | nil : SpellsAll [] []
  | cons {setting : Setting} {value : String} {words : List String}
      {settings : List (Setting × String)} {others : List String}
      (first : Spells setting value words) (rest : SpellsAll settings others) :
      SpellsAll ((setting,value) :: settings) (words ++ others)

/-- Settings that may be given together: only selectors come more than once, and each of them names
a label. -/
structure Fit (settings : List (Setting × String)) : Prop where
  once : settings.Pairwise fun a b => a.1 = b.1 → a.1.repeats = true
  labelled : ∀ text, (.selector,text) ∈ settings → ∃ key value, Names text key value

theorem Fit.front {settings others : List (Setting × String)} (fit : Fit (settings ++ others)) :
    Fit settings where
  once := (List.pairwise_append.mp fit.once).1
  labelled text member := fit.labelled text (List.mem_append_left _ member)

namespace Given
variable {allowed : List Setting} {room : Nat} {setting : Setting} {value : String}
  {start settings : List (Setting × String)} {words : List String}

/-- A setting that is fit for those given so far is put behind them. -/
theorem set_fit {given : Given} (fit : Fit (given.settings ++ [(setting,value)])) :
    given.set setting value = some
      { given with settings := given.settings ++ [(setting,value)],awaited := none } := by
  have single : (given.has setting && !setting.repeats) = false := by
    rw [Bool.and_eq_false_iff,or_iff_not_imp_left]
    intro already
    obtain ⟨found,there⟩ := Option.isSome_iff_exists.mp (Bool.not_eq_false _ ▸ already)
    obtain ⟨entry,first,-⟩ := Option.map_eq_some_iff.mp there
    have same : entry.1 = setting := of_decide_eq_true (List.find?_some first :)
    have repeats := (List.pairwise_append.mp fit.once).2.2 entry
      (List.mem_of_find?_eq_some first) _ List.mem_cons_self same
    rw [← same,repeats]
    rfl
  have named : ¬(setting = .selector ∧ label? value = none) := by
    rintro ⟨rfl,none⟩
    obtain ⟨key,rest,names⟩ := fit.labelled value (List.mem_append_right _ List.mem_cons_self)
    rw [(label?_eq_some_iff _ _ _).mpr names] at none
    contradiction
  rw [set,single,if_neg Bool.false_ne_true,if_neg named]

theorem set_start (fit : Fit (start ++ [(setting,value)])) :
    Given.set { settings := start } setting value =
      some { settings := start ++ [(setting,value)] } :=
  set_fit fit

theorem step_option {word : String} (option : Optional word) :
    step allowed room { settings := start } word =
      Given.option allowed { settings := start } word := by
  simp only [step,option.dashed,option.help,option.other,Bool.not_true,Bool.or_false,
    Bool.false_eq_true,if_false]

theorem step_joined (known : setting ∈ allowed) (takes : setting.takesValue = true)
    (fit : Fit (start ++ [(setting,value)])) :
    step allowed room { settings := start } (setting.name ++ "=" ++ value) =
      some { settings := start ++ [(setting,value)] } := by
  have option := setting.name_option ("=" ++ value)
  rw [← String.append_assoc] at option
  rw [step_option option,Given.option,splitAt_marked setting.name_free]
  simp only [Setting.find?_name known,takes,if_true,set_start fit]

theorem step_name (room : Nat) (start : List (Setting × String)) (known : setting ∈ allowed) :
    step allowed room { settings := start } setting.name =
      if setting.takesValue then some { settings := start,awaited := some setting }
      else Given.set { settings := start } setting "" := by
  have option := setting.name_option ""
  rw [String.append_empty] at option
  rw [step_option option,Given.option,splitAt_free setting.name_free]
  simp only [Setting.find?_name known]

theorem step_awaited (plain : dashed value = false) (fit : Fit (start ++ [(setting,value)])) :
    step allowed room { settings := start,awaited := some setting } value =
      some { settings := start ++ [(setting,value)] } := by
  simp only [step,plain,Bool.false_eq_true,if_false]
  exact set_fit fit

theorem foldlM_spells (spells : Spells setting value words) (known : setting ∈ allowed)
    (fit : Fit (start ++ [(setting,value)])) :
    words.foldlM (step allowed room) { settings := start } =
      some { settings := start ++ [(setting,value)] } := by
  cases spells with
  | joined takes value =>
    rw [List.foldlM_cons,step_joined known takes fit]
    rfl
  | apart takes plain =>
    rw [List.foldlM_cons,step_name room start known,if_pos takes]
    show (step allowed room { settings := start,awaited := some setting } value >>= _) = _
    rw [step_awaited plain fit]
    rfl
  | switch bare =>
    rw [List.foldlM_cons,step_name room start known,bare,if_neg Bool.false_ne_true,set_start fit]
    rfl

/-- Settings are read one after another from the words that spell them. -/
theorem foldlM_spellsAll (start : List (Setting × String)) (spelled : SpellsAll settings words)
    (known : ∀ entry ∈ settings, entry.1 ∈ allowed) (fit : Fit (start ++ settings)) :
    words.foldlM (step allowed room) { settings := start } =
      some { settings := start ++ settings } := by
  induction spelled generalizing start with
  | nil =>
    rw [List.append_nil]
    rfl
  | @cons setting value _ settings _ first _ ih =>
    obtain ⟨here,later⟩ := List.forall_mem_cons.mp known
    rw [List.append_cons] at fit
    rw [List.foldlM_append,foldlM_spells first here fit.front]
    show List.foldlM _ _ _ = _
    rw [ih _ later fit,List.append_assoc]
    rfl

end Given

/-- An option, or the value that one waits for, is read on the front side of the command. -/
theorem readFrom_step {environment : String → Option String} {given next : Given} {word : String}
    (front : given.awaited = none → Optional word) (plain : given.plain = false)
    (step : given.step Setting.everywhere 0 word = some next) (rest : List String) :
    readFrom environment given (word :: rest) = readFrom environment next rest := by
  rw [readFrom,Given.idle,plain,step]
  -- A word that a setting waits for is its value, even where it reads like the name of a command.
  cases awaits : given.awaited with
  | none => simp [(front awaits).dashed,(front awaits).version,(front awaits).help]
  | some setting => simp

section
variable {environment : String → Option String} {setting : Setting} {value : String}
  {start settings : List (Setting × String)} {words : List String}

theorem readFrom_spells (spells : Spells setting value words) (known : setting ∈ Setting.everywhere)
    (fit : Fit (start ++ [(setting,value)])) (rest : List String) :
    readFrom environment { settings := start } (words ++ rest) =
      readFrom environment { settings := start ++ [(setting,value)] } rest := by
  cases spells with
  | joined takes value =>
    have option := setting.name_option ("=" ++ value)
    rw [← String.append_assoc] at option
    exact readFrom_step (fun _ => option) rfl (Given.step_joined known takes fit) rest
  | apart takes plain =>
    have option := setting.name_option ""
    rw [String.append_empty] at option
    have named := Given.step_name 0 start known
    rw [if_pos takes] at named
    refine (readFrom_step (fun _ => option) rfl named (value :: rest)).trans ?_
    refine readFrom_step ?_ rfl (Given.step_awaited plain fit) rest
    intro idle
    contradiction
  | switch bare =>
    have option := setting.name_option ""
    rw [String.append_empty] at option
    have named := Given.step_name 0 start known
    rw [bare,if_neg Bool.false_ne_true,Given.set_start fit] at named
    exact readFrom_step (fun _ => option) rfl named rest

theorem readFrom_spellsAll (start : List (Setting × String)) (spelled : SpellsAll settings words)
    (known : ∀ entry ∈ settings, entry.1 ∈ Setting.everywhere) (fit : Fit (start ++ settings))
    (rest : List String) : readFrom environment { settings := start } (words ++ rest) =
      readFrom environment { settings := start ++ settings } rest := by
  induction spelled generalizing start with
  | nil => rw [List.append_nil,List.nil_append]
  | cons first _ ih =>
    obtain ⟨here,later⟩ := List.forall_mem_cons.mp known
    rw [List.append_cons] at fit
    rw [List.append_assoc,readFrom_spells first here fit.front,ih _ later fit,← List.append_cons]

end

end NodeAudit.CommandLine
