import Mathlib.Data.List.Sort
import NodeAudit.CommandLine.Run
import NodeAudit.Proofs.CommandLine.Words
import NodeAudit.Proofs.Roles
import NodeAudit.Proofs.SortedMap
import NodeAudit.Proofs.Text.Utf8

/-! What is printed and logged for a profile and labels on a command line. Only the keys of the
labels count, in whatever order and however often they are given. -/
namespace NodeAudit.CommandLine
open Trace

/-- A label among some words has this key. -/
def Keyed (texts : List String) (key : String) : Prop :=
  ∃ text ∈ texts, ∃ value, Names text key value

theorem keyed_iff (texts : List String) (key : String) :
    Keyed texts key ↔ key ∈ texts.filterMap fun text => (label? text).map (·.1) := by
  simp [Keyed,← label?_eq_some_iff]

/-- The values that are given to a setting, in their order. -/
def valuesOf (setting : Setting) (settings : List (Setting × String)) : List String :=
  settings.filterMap fun entry => if entry.1 = setting then some entry.2 else none

/-- A command line that gives a profile and these labels to `scan-name`, in whatever order and
spelling, and a level of logging on either side of the command. -/
inductive ScanLine (profile : String) (texts : List String) (level : Option String) :
    List String → Prop where
  | spelled {early late : List (Setting × String)} {front back : List String}
      (first : SpellsAll early front) (logging : ∀ entry ∈ early, entry.1 ∈ Setting.everywhere)
      (before : Fit early) (second : SpellsAll late back) (after : Fit late)
      (named : (.profile,profile) ∈ late) (selected : valuesOf .selector late = texts)
      (heard : (Given.value? { settings := late } .logLevel).or
        (Given.value? { settings := early } .logLevel) = level) :
      ScanLine profile texts level (front ++ "scan-name" :: back)

/-- The level that a run asks of its log. -/
def asked (environment : String → Option String) (given : Option String) : Level :=
  level ((given.or (environment "LOG_LEVEL")).getD "info")

/-- Where the environment holds no directives, the level asked for decides on the lines of every
module. -/
def Surroundings.HeedsLevel (surroundings : Surroundings) : Prop :=
  ∀ asked (origin : Origin) level,
    surroundings.admits none asked origin.target level = decide (asked.rank ≤ level.rank)

/-- The messages of information among some lines. -/
def informing (lines : List (Level × String)) : List String :=
  lines.filterMap fun line => if line.1 = .info then some line.2 else none

/-- What a run has to tell the log as information, whether or not a filter lets it through. -/
def Outcome.told : Outcome → List String
  | .ran _ _ trace => informing (trace.logs.map (·.2))
  | _ => []

/-- What is logged as information. -/
def Outcome.infos (outcome : Outcome) : List String := informing outcome.logs

section
variable {settings : List (Setting × String)} {words : List String}

theorem ofWords_spellsAll {allowed : List Setting} (room : Nat) (spelled : SpellsAll settings words)
    (known : ∀ entry ∈ settings, entry.1 ∈ allowed ++ Setting.everywhere) (fit : Fit settings) :
    Given.ofWords allowed room words = some { settings } := by
  rw [Given.ofWords,Given.foldlM_spellsAll [] spelled known fit]
  rfl

theorem value?_of_mem (fit : Fit settings) {setting : Setting} {value : String}
    (single : setting.repeats = false) (member : (setting,value) ∈ settings) :
    Given.value? { settings } setting = some value := by
  obtain ⟨before,after,split⟩ := List.append_of_mem member
  have once := fit.once
  rw [split] at once
  have others : ∀ entry ∈ before, ¬decide (entry.1 = setting) = true := by
    intro entry inside same
    have repeats := (List.pairwise_append.mp once).2.2 entry inside _ List.mem_cons_self
      (of_decide_eq_true same)
    rw [of_decide_eq_true same,single] at repeats
    contradiction
  rw [Given.value?]
  show (settings.find? _).map _ = _
  rw [split,List.find?_append,List.find?_eq_none.mpr others,Option.none_or,
    List.find?_cons_of_pos (by simp)]
  rfl

end

theorem readFrom_scanName {environment : String → Option String} {before after : Given}
    (idle : before.idle = true) {words : List String}
    (read : Given.ofWords [.profile,.selector] 0 words = some after) {profile : String}
    (named : after.value? .profile = some profile) (serious : after.helps = false) :
    readFrom environment before ("scan-name" :: words) =
      (invocation? environment before after (.scanName profile after.selector)).map .run := by
  have command : Verb.scanName.command? after = some (.scanName profile after.selector) := by
    rw [Verb.command?,named]
    rfl
  rw [readFrom,idle,if_neg (by decide),if_neg (by decide),if_pos (by decide),readCommand,
    if_neg (by decide)]
  show (Given.ofWords [.profile,.selector] 0 words >>= _) = _
  rw [read]
  show (if after.helps then _ else _) = _
  rw [serious]
  show (Verb.scanName.command? after >>= _) = _
  rw [command]
  show (invocation? environment before after (.scanName profile after.selector) >>= _) = _
  cases invocation? environment before after (.scanName profile after.selector) <;> rfl

theorem exists_structured {environment : String → Option String}
    (switched : ∀ value, environment "LOG_JSON" = some value → value = "true" ∨ value = "false")
    (before after : Given) : ∃ b, structured? environment before after = some b := by
  rw [structured?]
  split
  next => exact ⟨true,rfl⟩
  next =>
    cases usual : environment "LOG_JSON" with
    | none => exact ⟨_,rfl⟩
    | some value =>
      rcases switched value usual with rfl | rfl
      · exact ⟨_,rfl⟩
      · exact ⟨_,rfl⟩

/-- The labels that are given are those that the words name. -/
theorem mem_selector_keys (settings : List (Setting × String)) (key : String) :
    key ∈ (Given.selector { settings }).keys ↔ Keyed (valuesOf .selector settings) key := by
  rw [Given.selector,SortedMap.mem_keys_ofList]
  constructor
  · rintro ⟨value,inside⟩
    obtain ⟨⟨setting,text⟩,member,read⟩ := List.mem_filterMap.mp inside
    obtain ⟨rfl,label⟩ := Option.ite_none_right_eq_some.mp read
    refine ⟨text,?_,value,(label?_eq_some_iff _ _ _).mp label⟩
    exact List.mem_filterMap.mpr ⟨_,member,if_pos rfl⟩
  · rintro ⟨text,inside,value,names⟩
    obtain ⟨⟨setting,other⟩,member,given⟩ := List.mem_filterMap.mp inside
    obtain ⟨rfl,same⟩ := Option.ite_none_right_eq_some.mp given
    obtain rfl := Option.some.inj same
    refine ⟨value,List.mem_filterMap.mpr ⟨_,member,?_⟩⟩
    rw [if_pos rfl]
    exact (label?_eq_some_iff _ _ _).mpr names

theorem Names.key_ne {text key value : String} (names : Names text key value) : key ≠ "" := by
  cases names with
  | bare given => exact given
  | valued _ given => exact given

theorem printScanName_eq (profile : String) {selector : Labels} (named : "" ∉ selector.keys) :
    ∃ early : List Event, (∀ event ∈ early, ∃ origin message, event = .log origin .debug message) ∧
      printScanName profile selector = ⟨early ++ .line (Roles.nameFor profile selector.keys) ::
        selector.keys.map fun role => .log .program .info ("  role: " ++ role),.ok ()⟩ := by
  have quiet := Roles.scanName_quiet profile named
  refine ⟨_,quiet.debugs,?_⟩
  rw [printScanName,Roles.all_eq,bind_ok quiet.ends,forM_log]
  rfl

/-- Whoever is blind to details sees the name, and then the roles. -/
theorem printScanName_seen (profile : String) {selector : Labels} (named : "" ∉ selector.keys)
    {β : Type} {select : Event → Option β}
    (blind : ∀ origin message, select (.log origin .debug message) = none) :
    (printScanName profile selector).events.filterMap select =
      (select (.line (Roles.nameFor profile selector.keys))).toList ++
        selector.keys.filterMap fun role => select (.log .program .info ("  role: " ++ role)) := by
  obtain ⟨early,debugs,shape⟩ := printScanName_eq profile named
  have nothing : early.filterMap select = [] := by
    rw [List.filterMap_eq_nil_iff]
    intro event inside
    obtain ⟨origin,message,rfl⟩ := debugs event inside
    exact blind origin message
  rw [shape]
  show (early ++ _ :: _).filterMap select = _
  rw [List.filterMap_append,nothing,List.nil_append,List.filterMap_cons,List.filterMap_map]
  cases select (.line (Roles.nameFor profile selector.keys)) <;> rfl

/-- What a run does that names a scan of some roles, and whether its information is `heard`. -/
structure Scanned (profile : String) (roles : List String) (heard : Bool) (outcome : Outcome) :
    Prop where
  succeeds : outcome.exitCode = 0
  asks : outcome.calls = []
  prints : outcome.output = [Roles.nameFor profile roles]
  tells : outcome.told = roles.map ("  role: " ++ ·)
  logs : outcome.infos = if heard then outcome.told else []

section
variable {hears : Origin → Level → Bool}

theorem Outcome.told_ran (invocation : Invocation) (trace : Trace Unit) :
    (Outcome.ran invocation hears trace).told = trace.events.filterMap fun
      | .log _ .info message => some message
      | _ => none := by
  rw [Outcome.told,informing,List.filterMap_map,Trace.logs,List.filterMap_filterMap]
  congr 1
  funext event
  cases event with
  | call | line => rfl
  | log origin level message => cases level <;> rfl

theorem Outcome.infos_ran (invocation : Invocation) (trace : Trace Unit) :
    (Outcome.ran invocation hears trace).infos = trace.events.filterMap fun
      | .log origin .info message => if hears origin .info then some message else none
      | _ => none := by
  rw [Outcome.infos,informing]
  show List.filterMap _ (List.filterMap _ (List.filterMap _ _)) = _
  rw [List.filterMap_filterMap,List.filterMap_filterMap]
  congr 1
  funext event
  cases event with
  | call | line => rfl
  | log origin level message =>
    cases heard : hears origin level <;> cases level <;> simp [heard]

theorem told_printScanName {profile : String} {selector : Labels} (named : "" ∉ selector.keys)
    (invocation : Invocation) :
    (Outcome.ran invocation hears (printScanName profile selector)).told =
      selector.keys.map ("  role: " ++ ·) := by
  rw [Outcome.told_ran,printScanName_seen profile named fun _ _ => rfl]
  exact congrFun List.filterMap_eq_map _

/-- All of the roles are told from one module at one level, so the filter takes all or none. -/
theorem infos_printScanName {profile : String} {selector : Labels} (named : "" ∉ selector.keys)
    (invocation : Invocation) :
    (Outcome.ran invocation hears (printScanName profile selector)).infos =
      if hears .program .info then selector.keys.map ("  role: " ++ ·) else [] := by
  rw [Outcome.infos_ran,printScanName_seen profile named fun _ _ => rfl]
  show List.filterMap (fun role => if hears .program .info then some ("  role: " ++ role) else none)
    selector.keys = _
  cases hears .program .info with
  | true => exact congrFun List.filterMap_eq_map _
  | false => exact List.filterMap_eq_nil_iff.mpr fun _ _ => rfl

theorem scanned_ran {profile : String} {selector : Labels} (named : "" ∉ selector.keys)
    (invocation : Invocation) :
    Scanned profile selector.keys (hears .program .info)
      (.ran invocation hears (printScanName profile selector)) where
  succeeds := by
    obtain ⟨_,_,shape⟩ := printScanName_eq profile named
    rw [shape]
    rfl
  asks := by
    refine (printScanName_seen profile named fun _ _ => rfl).trans ?_
    exact List.filterMap_eq_nil_iff.mpr fun _ _ => rfl
  prints := by
    refine (printScanName_seen profile named fun _ _ => rfl).trans ?_
    exact congrArg (_ :: ·) (List.filterMap_eq_nil_iff.mpr fun _ _ => rfl)
  tells := told_printScanName named invocation
  logs := by rw [infos_printScanName named,told_printScanName named]

end

/-- Such a line is read as the command on the labels, whose values are lost on all but the last of
those with one key. -/
theorem ScanLine.request {environment : String → Option String} {profile : String}
    {texts line : List String} {heard : Option String}
    (switched : ∀ value, environment "LOG_JSON" = some value → value = "true" ∨ value = "false")
    (scan : ScanLine profile texts heard line) :
    ∃ structured settings, valuesOf .selector settings = texts ∧ request? environment line =
      some (.run ⟨asked environment heard,structured,
        .scanName profile (Given.selector { settings })⟩) := by
  obtain @⟨early,late,front,back,first,logging,before,second,after,named,selected,heard⟩ := scan
  obtain ⟨structured,formed⟩ := exists_structured switched { settings := early } { settings := late }
  have known : ∀ entry ∈ late, entry.1 ∈ [.profile,.selector] ++ Setting.everywhere := by
    intro entry _
    cases entry.1 <;> decide
  have read := ofWords_spellsAll 0 second known after
  have profiled := value?_of_mem after rfl named
  refine ⟨structured,late,selected,?_⟩
  rw [request?]
  show readFrom environment { settings := [] } _ = _
  rw [readFrom_spellsAll [] first logging before,List.nil_append,
    readFrom_scanName rfl read profiled rfl,invocation?,formed,heard]
  rfl

/-- The keys among some words, each of them once, in the order of their bytes. -/
structure Ranked (texts roles : List String) : Prop where
  ascending : roles.Pairwise fun a b => Utf8.bytes a < Utf8.bytes b
  keys : ∀ role, role ∈ roles ↔ Keyed texts role

/-- The first of the keys among some words, in the order of their bytes. -/
def Least (texts : List String) (key : String) : Prop :=
  Keyed texts key ∧ ∀ other, Keyed texts other → Utf8.bytes key ≤ Utf8.bytes other

section
variable {texts roles others : List String}

theorem ranked_selector (settings : List (Setting × String)) :
    Ranked (valuesOf .selector settings) (Given.selector { settings }).keys where
  ascending := by
    rw [SortedMap.keys,List.pairwise_map]
    apply (Given.selector { settings }).ascending.imp
    intro a b below
    exact (Utf8.bytes_lt_iff _ _).mpr below
  keys := mem_selector_keys settings

theorem Ranked.named (ranked : Ranked texts roles) : "" ∉ roles := by
  intro inside
  obtain ⟨text,_,value,names⟩ := (ranked.keys _).mp inside
  exact names.key_ne rfl

theorem Ranked.unique (ranked : Ranked texts roles) (other : Ranked texts others) :
    roles = others := by
  have irrefl : Std.Irrefl fun a b => Utf8.bytes a < Utf8.bytes b := ⟨fun _ => List.lt_irrefl _⟩
  apply ranked.ascending.eq_of_mem_iff other.ascending
  intro role
  rw [ranked.keys,other.keys]

theorem Ranked.congr (ranked : Ranked texts roles)
    (same : ∀ key, Keyed others key ↔ Keyed texts key) : Ranked others roles where
  ascending := ranked.ascending
  keys role := (ranked.keys role).trans (same role).symm

theorem Ranked.eq_nil_iff (ranked : Ranked texts roles)
    (labelled : ∀ text ∈ texts, ∃ key value, Names text key value) : roles = [] ↔ texts = [] := by
  simp only [List.eq_nil_iff_forall_not_mem]
  constructor
  · intro none text inside
    obtain ⟨key,value,names⟩ := labelled text inside
    exact none key ((ranked.keys key).mpr ⟨text,inside,value,names⟩)
  · intro none role inside
    obtain ⟨text,member,-⟩ := (ranked.keys role).mp inside
    exact none text member

theorem Ranked.head?_eq_some_iff (ranked : Ranked texts roles) (key : String) :
    roles.head? = some key ↔ Least texts key := by
  constructor
  · intro first
    obtain ⟨rest,rfl⟩ := List.head?_eq_some_iff.mp first
    refine ⟨(ranked.keys key).mp List.mem_cons_self,fun other keyed => ?_⟩
    rcases List.mem_cons.mp ((ranked.keys other).mpr keyed) with rfl | later
    · exact List.le_refl _
    · exact List.le_of_lt ((List.pairwise_cons.mp ranked.ascending).1 other later)
  · rintro ⟨keyed,least⟩
    have inside := (ranked.keys key).mpr keyed
    cases roles with
    | nil => contradiction
    | cons role rest =>
      rcases List.mem_cons.mp inside with rfl | later
      · rfl
      · have below := (List.pairwise_cons.mp ranked.ascending).1 key later
        have above := least role ((ranked.keys role).mp List.mem_cons_self)
        exact absurd below (List.not_lt.mpr above)

end

section
variable {surroundings : Surroundings} {profile : String} {texts line : List String}
  {heard : Option String}

/-- The words of such a line all name labels. -/
theorem ScanLine.labelled (scan : ScanLine profile texts heard line) :
    ∀ text ∈ texts, ∃ key value, Names text key value := by
  intro text inside
  obtain @⟨_,late,_,_,_,_,_,_,after,_,rfl,_⟩ := scan
  obtain ⟨⟨setting,value⟩,member,given⟩ := List.mem_filterMap.mp inside
  obtain ⟨rfl,same⟩ := Option.ite_none_right_eq_some.mp given
  obtain rfl := Option.some.inj same
  exact after.labelled value member

/-- Such a line names a scan of the keys of its labels. -/
theorem ScanLine.scanned (switched : ∀ value, surroundings.environment "LOG_JSON" = some value →
    value = "true" ∨ value = "false") (scan : ScanLine profile texts heard line) :
    ∃ roles, Ranked texts roles ∧
      Scanned profile roles
        (surroundings.hears (asked surroundings.environment heard) .program .info)
        (run surroundings line) := by
  obtain ⟨structured,settings,rfl,read⟩ := scan.request switched
  refine ⟨_,ranked_selector settings,?_⟩
  rw [run,read]
  exact scanned_ran (ranked_selector settings).named
    ⟨_,structured,.scanName profile (Given.selector { settings })⟩

end

/-- A line with a profile and labels has the profile printed, alone if there are no labels and with
the least of their keys if there are, and each of the keys is told once, in their order. A word
is taken for a label unless it is empty or begins with the mark. What is told is logged as a whole
or not at all, whatever directives the environment holds, and without any it is logged from the
level asked for on. What is printed, told and logged depends on nothing but the keys. -/
theorem scanLine_outcome (surroundings : Surroundings) {profile : String}
    {texts line : List String} {heard : Option String}
    (switched : ∀ value, surroundings.environment "LOG_JSON" = some value →
      value = "true" ∨ value = "false")
    (scan : ScanLine profile texts heard line) :
    (∀ text, (∃ label, label? text = some label) ↔ text ≠ "" ∧ text.toList.head? ≠ some '=') ∧
    (∀ text key value, label? text = some (key,value) ↔ Names text key value) ∧
    ((run surroundings line).output = [profile] ↔ texts = []) ∧
    (texts ≠ [] → ∃ key, Least texts key ∧
      (run surroundings line).output = [profile ++ "-" ++ key]) ∧
    (∃ roles, Ranked texts roles ∧ (∀ key, roles.head? = some key ↔ Least texts key) ∧
      Scanned profile roles
        (surroundings.hears (asked surroundings.environment heard) .program .info)
        (run surroundings line)) ∧
    (surroundings.HeedsLevel → surroundings.environment "RUST_LOG" = none →
      (run surroundings line).infos =
        if (asked surroundings.environment heard).rank ≤ Level.info.rank
        then (run surroundings line).told else []) ∧
    ∀ others twin, ScanLine profile others heard twin →
      (∀ key, Keyed others key ↔ Keyed texts key) →
      (run surroundings twin).output = (run surroundings line).output ∧
      (run surroundings twin).told = (run surroundings line).told ∧
      (run surroundings twin).infos = (run surroundings line).infos := by
  obtain ⟨roles,ranked,scanned⟩ := scan.scanned switched
  have empty := ranked.eq_nil_iff scan.labelled
  refine ⟨fun text => ?_,label?_eq_some_iff,?_,?_,
    ⟨roles,ranked,ranked.head?_eq_some_iff,scanned⟩,fun heeds unset => ?_,
    fun others twin second same => ?_⟩
  · rw [← exists_names_iff]
    simp only [← label?_eq_some_iff,Prod.exists]
  · rw [scanned.prints,List.singleton_inj,Roles.nameFor_eq_iff,empty]
  · intro given
    rw [ne_eq,← empty] at given
    obtain ⟨key,rest,rfl⟩ := List.exists_cons_of_ne_nil given
    exact ⟨key,(ranked.head?_eq_some_iff key).mp rfl,scanned.prints⟩
  · rw [scanned.logs,Surroundings.hears,unset,heeds]
    simp only [decide_eq_true_eq]
  · obtain ⟨again,second,twice⟩ := second.scanned switched
    obtain rfl := second.unique (ranked.congr same)
    rw [twice.prints,scanned.prints,twice.logs,scanned.logs,twice.tells,scanned.tells]
    exact ⟨rfl,rfl,rfl⟩

/-- Every profile and every list of words for labels has a line. -/
theorem scanLine_joined (profile : String) {texts : List String}
    (labelled : ∀ text ∈ texts, ∃ key value, Names text key value) :
    ScanLine profile texts none ("scan-name" :: (Setting.profile.name ++ "=" ++ profile) ::
      texts.map fun text => Setting.selector.name ++ "=" ++ text) := by
  have spelled : SpellsAll (texts.map fun text => (.selector,text))
      (texts.map fun text => Setting.selector.name ++ "=" ++ text) := by
    clear labelled
    induction texts with
    | nil => exact .nil
    | cons text texts ih => exact .cons (.joined rfl text) ih
  refine .spelled .nil (List.forall_mem_nil _) ⟨.nil,nofun⟩ (.cons (.joined rfl profile) spelled)
    ⟨?_,fun text member => ?_⟩ List.mem_cons_self ?_ ?_
  · rw [List.pairwise_cons,List.pairwise_map]
    constructor
    · intro entry inside same
      obtain ⟨text,_,rfl⟩ := List.mem_map.mp inside
      contradiction
    · exact List.pairwise_of_forall fun _ _ _ => rfl
  · rcases List.mem_cons.mp member with other | inside
    · simp at other
    · obtain ⟨known,there,same⟩ := List.mem_map.mp inside
      cases same
      exact labelled text there
  · rw [valuesOf,List.filterMap_cons,List.filterMap_map]
    exact (congrFun List.filterMap_eq_map _).trans (List.map_id _)
  · have other : (texts.map fun text => (Setting.selector,text)).find?
        (fun entry => entry.1 = .logLevel) = none := by
      simp
    show ((List.find? _ (_ :: _)).map _).or none = none
    rw [List.find?_cons_of_neg (by simp),other]
    rfl

/-- An environment without variables, files and a cluster. -/
def Surroundings.bare : Surroundings where
  environment _ := none
  file _ := .error "No such file or directory"
  client := .error .invalidRequest

/-- An environment whose directive lets only errors of the modules here through. -/
def Surroundings.terse : Surroundings :=
  { Surroundings.bare with
    environment := fun name =>
      if name = "RUST_LOG" then some "compliance_nodeutils=error" else none
    admits := fun directives asked _ level =>
      decide ((if directives.isSome then Level.error else asked).rank ≤ level.rank) }

/-- The key that is least by its bytes is not the one that is least by units of sixteen bits. -/
theorem scanLine_outcome_beyond :
    (run .bare ["scan-name","--profile=moderate","--selector=😀=a=b","--selector=\uffee",
      "--selector=😀"]).output = ["moderate-\uffee"] ∧
    (run .bare ["scan-name","--profile=moderate","--selector=😀=a=b","--selector=\uffee",
      "--selector=😀"]).infos = ["  role: \uffee","  role: 😀"] ∧
    (run .bare ["scan-name","--profile=moderate","--selector=\uffee=c","--selector=😀=d"]).output =
      ["moderate-\uffee"] ∧
    (run .terse ["scan-name","--profile=moderate","--selector=\uffee=c","--selector=😀=d"]).told =
      ["  role: \uffee","  role: 😀"] ∧
    (run .terse ["scan-name","--profile=moderate","--selector=\uffee=c","--selector=😀=d"]).infos =
      [] := by
  have scan : ScanLine "moderate" ["😀=a=b","\uffee","😀"] none ["scan-name","--profile=moderate",
      "--selector=😀=a=b","--selector=\uffee","--selector=😀"] :=
    scanLine_joined "moderate" fun text _ => (exists_names_iff text).mpr (by revert text; decide)
  have twin : ScanLine "moderate" ["\uffee=c","😀=d"] none ["scan-name","--profile=moderate",
      "--selector=\uffee=c","--selector=😀=d"] :=
    scanLine_joined "moderate" fun text _ => (exists_names_iff text).mpr (by revert text; decide)
  have first : (["😀=a=b","\uffee","😀"].filterMap fun text => (label? text).map (·.1)) =
      ["😀","\uffee","😀"] := by decide
  have second : (["\uffee=c","😀=d"].filterMap fun text => (label? text).map (·.1)) =
      ["\uffee","😀"] := by decide
  have same (key : String) :
      Keyed ["\uffee=c","😀=d"] key ↔ Keyed ["😀=a=b","\uffee","😀"] key := by
    rw [keyed_iff,keyed_iff,first,second]
    simpa using .inr
  have ranked : Ranked ["\uffee=c","😀=d"] ["\uffee","😀"] := by
    constructor
    · decide
    · intro role
      rw [keyed_iff,second]
  obtain ⟨-,-,-,-,⟨roles,others,-,scanned⟩,logged,alike⟩ :=
    scanLine_outcome .bare (fun _ given => nomatch given) scan
  obtain rfl := (ranked.congr fun key => (same key).symm).unique others
  obtain ⟨-,-,-,-,⟨roles,others,-,terse⟩,-⟩ :=
    scanLine_outcome .terse (fun _ given => nomatch given) twin
  obtain rfl := ranked.unique others
  have infos := (logged (fun _ _ _ => rfl) rfl).trans (if_pos (by decide))
  exact ⟨scanned.prints,infos.trans scanned.tells,
    (alike _ _ twin same).1.trans scanned.prints,terse.tells,terse.logs⟩

end NodeAudit.CommandLine
