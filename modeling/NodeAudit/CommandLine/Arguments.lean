import NodeAudit.Trace

/-! What the words of a command line ask for. Options are long, take their value after an equals
sign or as the next word, and are given at most once, selectors apart. The options on logging may
stand on both sides of the command, and there the later one counts. -/
namespace NodeAudit.CommandLine

inductive Command where
  | scanName (profile : String) (selector : Labels)
  | pool (selector : Labels)
  | stripSizing (file : String)

structure Invocation where
  level : Level
  structured : Bool
  command : Command

inductive Request where
  | version
  | help
  | run (invocation : Invocation)

inductive Setting where
  | logLevel
  | logJson
  | profile
  | selector
deriving DecidableEq

namespace Setting

def name : Setting → String
  | .logLevel => "--log-level"
  | .logJson => "--log-json"
  | .profile => "--profile"
  | .selector => "--selector"

def takesValue (setting : Setting) : Bool := setting != .logJson

def repeats (setting : Setting) : Bool := setting == .selector

/-- The settings that may stand before the command and after it. -/
def everywhere : List Setting := [.logLevel, .logJson]

end Setting

inductive Verb where
  | scanName
  | pool
  | stripSizing

namespace Verb

def name : Verb → String
  | .scanName => "scan-name"
  | .pool => "pool"
  | .stripSizing => "strip-sizing"

def ofName? (text : String) : Option Verb :=
  [scanName, pool, stripSizing].find? (·.name = text)

def settings : Verb → List Setting
  | .scanName => [.profile, .selector]
  | .pool => [.selector]
  | .stripSizing => []

/-- How many words the command takes besides its settings. -/
def room : Verb → Nat
  | .stripSizing => 1
  | _ => 0

end Verb

/-- What has been read so far on one side of the command. -/
structure Given where
  settings : List (Setting × String) := []
  words : List String := []
  /-- The setting whose value must come next. -/
  awaited : Option Setting := none
  plain : Bool := false
  /-- Whether help was asked for, after which nothing counts. -/
  helps : Bool := false

def splitAt (mark : Char) (text : String) : String × Option String :=
  let (before, rest) := text.toList.span (· ≠ mark)
  (String.ofList before, rest.head?.map fun _ => String.ofList rest.tail)

/-- A label and its value, which is empty if it is left out. -/
def label? (text : String) : Option (String × String) :=
  let (key, value) := splitAt '=' text
  if key.isEmpty then none else some (key, value.getD "")

/-- Whether a word is taken for an option. A dash alone is not. -/
def dashed (word : String) : Bool :=
  match word.toList with
  | '-' :: _ :: _ => true
  | _ => false

def asksVersion (word : String) : Bool :=
  word == "--version" || "-V".toList.isPrefixOf word.toList

def asksHelp (word : String) : Bool :=
  word == "--help" || "-h".toList.isPrefixOf word.toList

namespace Given

/-- Whether the next word is not the value of an option, and may be one. -/
def idle (given : Given) : Bool := given.awaited.isNone && !given.plain

def value? (given : Given) (setting : Setting) : Option String :=
  (given.settings.find? fun entry => entry.1 = setting).map (·.2)

def has (given : Given) (setting : Setting) : Bool := (given.value? setting).isSome

def set (given : Given) (setting : Setting) (value : String) : Option Given :=
  if given.has setting && !setting.repeats then none
  else if setting = .selector ∧ label? value = none then none
  else some { given with settings := given.settings ++ [(setting, value)], awaited := none }

def option (allowed : List Setting) (given : Given) (word : String) : Option Given :=
  let (name, value) := splitAt '=' word
  match allowed.find? (·.name = name), value with
  | none, _ => none
  | some setting, some value => if setting.takesValue then given.set setting value else none
  | some setting, none =>
    if setting.takesValue then some { given with awaited := some setting } else given.set setting ""

/-- Reads one more word. One that is no option must not be empty, and there is room for only so
many of them. -/
def step (allowed : List Setting) (room : Nat) (given : Given) (word : String) : Option Given :=
  if given.helps then some given
  else
    match given.awaited with
    | some setting => if dashed word then none else given.set setting word
    | none =>
      if given.plain || !dashed word then
        if word.isEmpty || room ≤ given.words.length then none
        else some { given with words := given.words ++ [word] }
      else if word = "--" then some { given with plain := true }
      else if asksHelp word then some { given with helps := true }
      else given.option allowed word

/-- Reads all words of the part after the command, whose last option must have its value. -/
def ofWords (allowed : List Setting) (room : Nat) (words : List String) : Option Given := do
  let given ← words.foldlM (step (allowed ++ Setting.everywhere) room) {}
  if given.awaited.isNone then return given else none

def selector (given : Given) : Labels :=
  .ofList (given.settings.filterMap fun entry =>
    if entry.1 = .selector then label? entry.2 else none)

end Given

def Verb.command? (verb : Verb) (given : Given) : Option Command :=
  match verb with
  | .scanName => (given.value? .profile).map fun profile => .scanName profile given.selector
  | .pool => if given.has .selector then some (.pool given.selector) else none
  | .stripSizing => given.words.head?.map .stripSizing

/-- Levels are named in either case. A name that is none means the usual level. -/
def level (name : String) : Level :=
  let lower := String.ofList (name.toList.map Char.toLower)
  if lower = "trace" then .trace
  else if lower = "debug" then .debug
  else if lower = "warn" then .warn
  else if lower = "error" then .error
  else .info

def switch? : String → Option Bool
  | "true" => some true
  | "false" => some false
  | _ => none

/-- Whether lines are logged as JSON. The environment is not looked at where both sides of the
command ask for it. -/
def structured? (environment : String → Option String) (before after : Given) : Option Bool :=
  if before.has .logJson && after.has .logJson then some true
  else do
    let usual ←
      match environment "LOG_JSON" with
      | some value => switch? value
      | none => some false
    return before.has .logJson || after.has .logJson || usual

def invocation? (environment : String → Option String) (before after : Given)
    (command : Command) : Option Invocation := do
  let structured ← structured? environment before after
  let name := (((after.value? .logLevel).or (before.value? .logLevel)).or
    (environment "LOG_LEVEL")).getD "info"
  return ⟨level name, structured, command⟩

/-- The word that, in place of a command, asks for help on the one after it. -/
def helpName : String := "help"

def helpful : List String → Bool
  | [] => true
  | [topic] => topic == helpName || (Verb.ofName? topic).isSome
  | _ => false

def readCommand (environment : String → Option String) (before : Given) (name : String)
    (words : List String) : Option Request :=
  if name = helpName then if helpful words then some .help else none
  else do
    let verb ← Verb.ofName? name
    let after ← Given.ofWords verb.settings verb.room words
    if after.helps then return .help
    return .run (← invocation? environment before after (← verb.command? after))

/-- Reads the words from the first on, after what `before` holds. -/
def readFrom (environment : String → Option String) : Given → List String → Option Request
  | _, [] => none
  | before, word :: rest =>
    if before.idle && asksVersion word then some .version
    else if before.idle && asksHelp word then some .help
    else if before.idle && !dashed word then readCommand environment before word rest
    else if before.plain then none
    else do readFrom environment (← before.step Setting.everywhere 0 word) rest

def request? (environment : String → Option String) (words : List String) : Option Request :=
  readFrom environment {} words

end NodeAudit.CommandLine
