import NodeAudit.Yaml.Core
import NodeAudit.Yaml.Node

/-! Settings written in YAML: a mapping of names to JSON values. Collections may be nested 128
deep, and aliases followed a hundred times as often as the document has parts. -/
namespace NodeAudit.Yaml

namespace Node

mutual
/-- The parts of a node: one for a scalar or an alias, two for the ends of a collection. -/
def parts : Node → Nat
  | .reference _ => 1
  | .scalar _ _ _ => 1
  | .sequence _ items => itemParts items + 2
  | .mapping _ members => memberParts members + 2

def itemParts : List Node → Nat
  | [] => 0
  | item :: rest => parts item + itemParts rest

def memberParts : List (Node × Node) → Nat
  | [] => 0
  | (key, value) :: rest => parts key + parts value + memberParts rest
end

def numbered (properties : Properties) (node : Node) : List (Nat × Node) :=
  match properties.anchor with
  | some n => [(n, node)]
  | none => []

mutual
/-- The nodes with an anchor, in the order in which they begin. -/
def anchored : Node → List (Nat × Node)
  | .reference _ => []
  | .scalar properties plain text => numbered properties (.scalar properties plain text)
  | .sequence properties items =>
    numbered properties (.sequence properties items) ++ itemsAnchored items
  | .mapping properties members =>
    numbered properties (.mapping properties members) ++ membersAnchored members

def itemsAnchored : List Node → List (Nat × Node)
  | [] => []
  | item :: rest => anchored item ++ itemsAnchored rest

def membersAnchored : List (Node × Node) → List (Nat × Node)
  | [] => []
  | (key, value) :: rest => anchored key ++ anchored value ++ membersAnchored rest
end

end Node

/-- What aliases stand for, and how often they may be followed. -/
structure Context where
  targets : List (Nat × Node)
  limit : Nat

namespace Context

/-- The node that an alias stands for: the last to begin with its number. -/
def target? (context : Context) (anchor : Nat) : Option Node :=
  (context.targets.reverse.find? fun entry => entry.1 = anchor).map (·.2)

def follow (context : Context) (anchor : Nat) : StateT Nat Option Node := do
  modify (· + 1)
  if context.limit < (← get) then failure
  else context.target? anchor

end Context

/-- A private tag on a collection is refused, and any other passed over. -/
def admissible (properties : Properties) : Bool :=
  match properties.tag with
  | some tag => !Core.isPrivate tag
  | none => true

/-- The name that a key gives: the text of a scalar, whatever its tag. A plain scalar that is empty
gives none, and refuses the document. -/
def nameOfKey (node : Node) : Option String :=
  match node with
  | .scalar _ _ text => if node.isEmpty then none else some text
  | _ => none

def name (context : Context) : Node → StateT Nat Option String
  | .reference anchor => do nameOfKey (← context.follow anchor)
  | node => nameOfKey node

/-- Reads the members of a mapping. Of several with one name the last counts. -/
def members (context : Context) (value : Node → StateT Nat Option Json)
    (entries : List (Node × Node)) : StateT Nat Option (SortedMap Json) :=
  entries.foldlM (fun map entry => do
    let key ← name context entry.1
    return map.insert key (← value entry.2)) .empty

def content (context : Context) (inner : Option (Node → StateT Nat Option Json)) :
    Node → StateT Nat Option Json
  | .reference _ => failure
  | .scalar properties plain text => Core.scalar properties.tag plain text
  | .sequence properties items =>
    match inner with
    | some value =>
      if admissible properties then return .array (← items.mapM value) else failure
    | none => failure
  | .mapping properties entries =>
    match inner with
    | some value =>
      if admissible properties then return .object (← members context value entries).entries
      else failure
    | none => failure

def dereference (context : Context) : Node → StateT Nat Option Node
  | .reference anchor => context.follow anchor
  | node => return node

def value (context : Context) : Nat → Node → StateT Nat Option Json
  | 0, node => do content context none (← dereference context node)
  | depth + 1, node => do
    content context (some (value context depth)) (← dereference context node)

def depth : Nat := 128

/-- The settings of a document: its mapping, whatever the tag on it, or none if it is empty. -/
def settings? (root : Node) : Option (SortedMap Json) :=
  match root with
  | .mapping _ entries =>
    let context : Context := ⟨root.anchored, 100 * root.parts⟩
    ((members context (value context (depth - 1)) entries).run 0).map (·.1)
  | _ => if root.isEmpty then some .empty else none

def parse (text : Bytes) : Option (SortedMap Json) := do
  settings? (← Node.ofTokens? (← tokens (← characters? text)))

end NodeAudit.Yaml
