import NodeAudit.Proofs.Trace
import NodeAudit.Scan

/-! The roles that a selector names are its keys, and the first of them names the scan. -/
namespace NodeAudit.Roles
open Trace

theorem labels_eq (selector : Labels) : labels selector = selector.keys := by
  rw [labels,List.filter_eq_self]
  intro key _
  rfl

theorem strip_eq (label : String) :
    String.ofList (label.toList.drop labelPrefix.length) = label := String.ofList_toList

theorem all_eq (selector : Labels) : all selector = selector.keys := by
  rw [all,labels_eq]
  exact (List.map_congr_left fun label _ => strip_eq label).trans (List.map_id _)

theorem firstLabel_quiet (selector : Labels) :
    Quiet (firstLabel selector) selector.keys.head? := by
  rw [firstLabel,labels_eq]
  dsimp only
  split
  next =>
    refine ⟨fun event inside => ?_,rfl⟩
    exact ⟨_,_,List.mem_singleton.mp inside⟩
  next => exact quiet_pure _

theorem first_quiet (selector : Labels) : Quiet (first selector) selector.keys.head? := by
  refine (firstLabel_quiet selector).bind ?_
  cases selector.keys with
  | nil => exact quiet_pure _
  | cons role rest =>
    show Quiet (pure (some (String.ofList (role.toList.drop labelPrefix.length)))) _
    rw [strip_eq]
    exact quiet_pure _

/-- The name of the scan of some roles for a profile. -/
def nameFor (profile : String) : List String → String
  | [] => profile
  | role :: _ => profile ++ "-" ++ role

theorem nameFor_eq_iff (profile : String) (roles : List String) :
    nameFor profile roles = profile ↔ roles = [] := by
  cases roles with
  | nil => exact ⟨fun _ => rfl,fun _ => rfl⟩
  | cons role rest =>
    refine ⟨fun same => ?_,nofun⟩
    have length := congrArg String.length same
    simp only [nameFor,String.length_append] at length
    have dash : "-".length = 1 := by rfl
    omega

theorem scanName_quiet (profile : String) {selector : Labels} (named : "" ∉ selector.keys) :
    Quiet (scanName profile selector) (nameFor profile selector.keys) := by
  refine (first_quiet selector).bind ?_
  cases keys : selector.keys with
  | nil => exact quiet_pure profile
  | cons role rest =>
    have given : role.isEmpty = false := by
      rw [keys] at named
      simpa using (List.ne_of_not_mem_cons named).symm
    show Quiet (pure (if role.isEmpty then profile else profile ++ "-" ++ role)) _
    rw [given]
    exact quiet_pure _

end NodeAudit.Roles
