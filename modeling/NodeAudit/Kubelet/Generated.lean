import NodeAudit.Resource.MachineConfigPool
import NodeAudit.Trace

/-! Machine configs generated from kubelet configs. The first for a pool has a bare name, further
ones end in a number, and the newest of a pool's sources is the one that counts. -/
namespace NodeAudit.Kubelet

/-- What the names of machine configs start with that are merged after all built-in ones. -/
def generatedPrefix : String := "99-"

def generatedMarker : String := "generated-kubelet"

def bareSuffix : String := "kubelet"

def occurs (word : List Char) : List Char → Bool
  | [] => word.isEmpty
  | c :: text => word.isPrefixOf (c :: text) || occurs word text

def isGenerated (name : String) : Bool :=
  generatedPrefix.toList.isPrefixOf name.toList && occurs generatedMarker.toList name.toList

def isBare (name : String) : Bool := bareSuffix.toList.isSuffixOf name.toList

structure Generated where
  ordinal : Nat
  name : String
deriving DecidableEq

/-- The number that the last character of a name gives. -/
def lastOrdinal (name : String) : Except Ordinal.Problem Nat :=
  Ordinal.read name.toList.getLast?.toList

/-- The newest so far after one more name. A bare name counts as zero, but only as the first. Of
equal numbers the earlier stays. -/
def newer (newest : Option Generated) (name : String) : Except Fault (Option Generated) :=
  if newest.isNone && isBare name then .ok (some ⟨0, name⟩)
  else
    match lastOrdinal name, newest with
    | .error problem, _ => .error (.ordinal name problem)
    | .ok ordinal, none => .ok (some ⟨ordinal, name⟩)
    | .ok ordinal, some top => .ok (some (if top.ordinal < ordinal then ⟨ordinal, name⟩ else top))

def newest? (names : List String) : Except Fault (Option Generated) :=
  (names.filter isGenerated).foldlM newer none

def latestGenerated (pool : MachineConfigPool) : Trace (Option String) := do
  match ← Trace.of (newest? pool.sourceNames) with
  | none => return none
  | some newest =>
    Trace.log .kubelet .debug ("Pool " ++ pool.metadata.anyName ++
      " uses generated kubelet MachineConfig " ++ newest.name ++
      " (ordinal " ++ decimal newest.ordinal ++ ")")
    return some newest.name

end NodeAudit.Kubelet
