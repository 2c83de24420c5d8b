import NodeAudit.Proofs.Kubelet.Newest
import NodeAudit.Proofs.Text.Decimal
import Mathlib.Data.Finset.Max
import Mathlib.Data.Multiset.Basic

/-! Generated machine configs are numbered without bound, but only the last digit of a number ranks
its name. Among sources in ascending order the greatest number is therefore found exactly when no
other number ends in a greater digit, or in the same digit under an earlier name. -/
namespace NodeAudit.Kubelet

/-- The name of the machine config that the kubelet config with a number is generated into. -/
def generatedName (pool : String) (number : Nat) : String :=
  generatedPrefix ++ pool ++ "-" ++ generatedMarker ++
    if number = 0 then "" else "-" ++ decimal number

/-- The name that all generated machine configs of a pool begin with. -/
def stem (pool : String) : List Char :=
  generatedPrefix.toList ++ (pool.toList ++ ('-' :: generatedMarker.toList))

theorem generatedName_zero (pool : String) : (generatedName pool 0).toList = stem pool := by
  simp [generatedName,stem]

theorem generatedName_pos (pool : String) (n : Nat) (positive : n ≠ 0) :
    (generatedName pool n).toList = stem pool ++ '-' :: (digits n).map digitChar := by
  simp [generatedName,stem,positive,toList_decimal]

theorem generatedName_candidate (pool : String) (n : Nat) :
    Candidate (generatedName pool n) := by
  have starts : generatedPrefix.toList <+: stem pool := List.prefix_append _ _
  have contains : generatedMarker.toList <:+: stem pool :=
    ⟨generatedPrefix.toList ++ (pool.toList ++ ['-']),[],by simp [stem]⟩
  have begins : stem pool <+: (generatedName pool n).toList := by
    by_cases zero : n = 0
    · subst zero
      rw [generatedName_zero]
    · rw [generatedName_pos pool n zero]
      exact List.prefix_append _ _
  exact ⟨starts.trans begins,contains.trans begins.isInfix⟩

theorem generatedName_injective (pool : String) {m n : Nat}
    (same : generatedName pool m = generatedName pool n) : m = n := by
  have chars := congrArg String.toList same
  by_cases zero : m = 0 <;> by_cases other : n = 0
  · exact zero.trans other.symm
  · subst zero
    simp [generatedName_zero,generatedName_pos pool n other] at chars
  · subst other
    simp [generatedName_zero,generatedName_pos pool m zero] at chars
  · rw [generatedName_pos pool m zero,generatedName_pos pool n other,← toList_decimal,
      ← toList_decimal] at chars
    have tails := List.cons.inj (List.append_cancel_left chars)
    exact decimal_injective (String.toList_inj.mp tails.2)

/-- The bare name is a proper beginning of all the others. -/
theorem generatedName_zero_lt (pool : String) (n : Nat) (positive : n ≠ 0) :
    generatedName pool 0 < generatedName pool n := by
  change (generatedName pool 0).toList < (generatedName pool n).toList
  rw [generatedName_zero,generatedName_pos pool n positive]
  have longer : stem pool ++ [] < stem pool ++ '-' :: (digits n).map digitChar :=
    List.append_left_lt (List.nil_lt_cons _ _)
  rwa [List.append_nil] at longer

theorem getLast_generatedName (pool : String) (n : Nat) (positive : n ≠ 0) :
    (generatedName pool n).toList.getLast? = some (digitChar (n % 10)) := by
  rw [generatedName_pos pool n positive,List.getLast?_append,List.getLast?_cons,List.getLast?_map,
    digits_getLast]
  rfl

theorem digit_digitChar {d : Nat} (small : d < 10) : Ordinal.digit? (digitChar d) = some d := by
  have code := toNat_digitChar small
  have low : '0' ≤ digitChar d := by
    rw [Char.le_def]
    change 48 ≤ (digitChar d).toNat
    omega
  have high : digitChar d ≤ '9' := by
    rw [Char.le_def]
    change (digitChar d).toNat ≤ 57
    omega
  rw [Ordinal.digit?,if_pos ⟨low,high⟩,code]
  simp

theorem rank_bare (pool : String) : rank? true (generatedName pool 0) = some 0 := by
  have ends : bareSuffix.toList <:+ (generatedName pool 0).toList := by
    rw [generatedName_zero]
    exact ⟨generatedPrefix.toList ++ (pool.toList ++ "-generated-".toList),by
      simp [stem,generatedMarker,bareSuffix]⟩
  rw [rank?,if_pos ⟨rfl,ends⟩]

/-- Only the last digit of a number ranks its name. -/
theorem rank_numbered (first : Bool) (pool : String) (n : Nat) (positive : n ≠ 0) :
    rank? first (generatedName pool n) = some (n % 10) := by
  have small : n % 10 < 10 := Nat.mod_lt _ (by omega)
  have numbered : ¬ bareSuffix.toList <:+ (generatedName pool n).toList := by
    rintro ⟨front,whole⟩
    have last := getLast_generatedName pool n positive
    rw [← whole,List.getLast?_append] at last
    have code := congrArg Char.toNat (Option.some.inj last)
    rw [toNat_digitChar small] at code
    change 't'.toNat = _ at code
    simp at code
    omega
  rw [rank?,if_neg fun bare => numbered bare.2,getLast_generatedName pool n positive]
  exact digit_digitChar small

/-- How generated names compare: by the last digit of the number, then by the order of names. -/
def Precedes (pool : String) (m n : Nat) : Prop :=
  n % 10 < m % 10 ∨ n % 10 = m % 10 ∧ generatedName pool m ≤ generatedName pool n

instance (pool : String) (m n : Nat) : Decidable (Precedes pool m n) :=
  inferInstanceAs (Decidable (_ ∨ _))

theorem precedes_antisymm (pool : String) {m n : Nat} (left : Precedes pool m n)
    (right : Precedes pool n m) : m = n := by
  rcases left with less | ⟨same,le⟩
  · rcases right with less' | ⟨same',_⟩ <;> omega
  · rcases right with less' | ⟨_,ge⟩
    · omega
    · exact generatedName_injective pool (String.le_antisymm le ge)

theorem map_fst_ranked (names : List String) : (ranked names).map (·.1) = names := by
  cases names <;> simp [ranked,Function.comp_def]

section Sources
variable {pool : String} {numbers : List Nat} {others : List String} {resource : MachineConfigPool}

theorem candidates_perm (foreign : ∀ name ∈ others, ¬Candidate name)
    (listed : resource.sourceNames.Perm (others ++ numbers.map (generatedName pool))) :
    (candidates resource).Perm (numbers.map (generatedName pool)) := by
  have kept := listed.filter fun name => decide (Candidate name)
  have dropped : others.filter (fun name => decide (Candidate name)) = [] :=
    List.filter_eq_nil_iff.mpr fun name member => by simpa using foreign name member
  have all : (numbers.map (generatedName pool)).filter (fun name => decide (Candidate name)) =
      numbers.map (generatedName pool) := by
    refine List.filter_eq_self.mpr fun name member => ?_
    obtain ⟨n,_,rfl⟩ := List.mem_map.mp member
    simpa using generatedName_candidate pool n
  rwa [List.filter_append,dropped,all,List.nil_append] at kept

/-- In ascending order only the bare name can stand first of all, so each name has its last digit
for a number. -/
theorem ranked_numbered (names : List String) (distinct : names.Nodup)
    (ordered : names.Pairwise (· ≤ ·)) (named : ∀ name ∈ names, ∃ n ∈ numbers, generatedName pool n = name) :
    ∀ entry ∈ ranked names, ∃ n ∈ numbers, entry = (generatedName pool n,some (n % 10)) := by
  cases names with
  | nil => simp [ranked]
  | cons first rest =>
    obtain ⟨new,_⟩ := List.nodup_cons.mp distinct
    obtain ⟨least,_⟩ := List.pairwise_cons.mp ordered
    obtain ⟨k,inside,rfl⟩ := named first List.mem_cons_self
    intro entry member
    rcases List.mem_cons.mp member with rfl | later
    · refine ⟨k,inside,?_⟩
      by_cases zero : k = 0
      · subst zero
        rw [rank_bare]
      · rw [rank_numbered true pool k zero]
    · obtain ⟨name,late,rfl⟩ := List.mem_map.mp later
      obtain ⟨n,present,rfl⟩ := named name (List.mem_cons_of_mem _ late)
      refine ⟨n,present,?_⟩
      have positive : n ≠ 0 := by
        rintro rfl
        have positive : k ≠ 0 := by
          rintro rfl
          exact new late
        exact String.not_lt.mpr (least _ late) (generatedName_zero_lt pool k positive)
      rw [rank_numbered false pool n positive]

/-- The newest is the first of all the numbers in the order of `Precedes`. -/
theorem latestGenerated_precedes (distinct : numbers.Nodup) (present : numbers ≠ [])
    (foreign : ∀ name ∈ others, ¬Candidate name)
    (listed : resource.sourceNames.Perm (others ++ numbers.map (generatedName pool)))
    (ordered : resource.sourceNames.Pairwise (· ≤ ·)) :
    ∃ m ∈ numbers, (latestGenerated resource).outcome = .ok (some (generatedName pool m)) ∧
      ∀ n ∈ numbers, Precedes pool m n := by
  have same := candidates_perm foreign listed
  have sorted : (candidates resource).Pairwise (· ≤ ·) := ordered.filter _
  have unique : (candidates resource).Nodup := same.nodup_iff.mpr
    (List.Pairwise.map _ (fun _ _ differ equal => differ (generatedName_injective pool equal)) distinct)
  have given : candidates resource ≠ [] := by
    intro empty
    rw [empty] at same
    exact present (List.map_eq_nil_iff.mp same.nil_eq.symm)
  have numbered := ranked_numbered (candidates resource) unique sorted fun name member =>
    List.mem_map.mp (same.mem_iff.mp member)
  obtain ⟨best,run,before,after,split,below,atMost⟩ := newest_ranked (candidates resource)
    (candidate_nonempty resource) given fun entry member => by
      obtain ⟨n,_,rfl⟩ := numbered entry member
      simp
  obtain ⟨m,inside,equal⟩ := numbered (best.name,some best.ordinal) (by simp [split])
  obtain ⟨named,digit⟩ := Prod.mk.inj equal
  have digit : best.ordinal = m % 10 := Option.some.inj digit
  refine ⟨m,inside,?_,fun n member => ?_⟩
  · rw [latestGenerated_of_newest resource _ run,← named]
    rfl
  · have listedName : generatedName pool n ∈ (ranked (candidates resource)).map (·.1) := by
      rw [map_fst_ranked]
      exact same.mem_iff.mpr (List.mem_map_of_mem member)
    obtain ⟨entry,present,name⟩ := List.mem_map.mp listedName
    obtain ⟨k,_,rfl⟩ := numbered entry present
    obtain rfl := generatedName_injective pool name
    rw [split] at present
    rcases List.mem_append.mp present with early | rest
    · obtain ⟨d,value,less⟩ := below _ early
      obtain rfl := Option.some.inj value
      exact .inl (digit ▸ less)
    · rcases List.mem_cons.mp rest with here | late
      · have equal := generatedName_injective pool ((Prod.mk.inj here).1.trans named)
        subst equal
        exact .inr ⟨rfl,String.le_refl _⟩
      · obtain ⟨d,value,le⟩ := atMost _ late
        obtain rfl := Option.some.inj value
        rcases Nat.lt_or_eq_of_le le with less | same
        · exact .inl (digit ▸ less)
        · refine .inr ⟨same.trans digit,?_⟩
          have pairs : ((ranked (candidates resource)).map (·.1)).Pairwise (· ≤ ·) := by
            rwa [map_fst_ranked]
          rw [split,List.map_append,List.map_cons] at pairs
          have tail := (List.pairwise_append.mp pairs).2.1
          rw [← named]
          exact (List.pairwise_cons.mp tail).1 _ (List.mem_map_of_mem late)

end Sources

/-- The greatest number is found exactly if it comes before all the others, which is to say that no
number ends in a greater digit, nor another in the same digit under a name that sorts before. -/
theorem latestGenerated_greatest_iff (pool : String) (numbers : Finset Nat)
    (present : numbers.Nonempty) (others : List String) (resource : MachineConfigPool)
    (foreign : ∀ name ∈ others, ¬Candidate name)
    (listed : (resource.sourceNames : Multiset String) =
      others + numbers.val.map (generatedName pool))
    (ordered : resource.sourceNames.Pairwise (· ≤ ·)) :
    (latestGenerated resource).outcome = .ok (some (generatedName pool (numbers.max' present))) ↔
      ∀ n ∈ numbers, Precedes pool (numbers.max' present) n := by
  have same : (numbers.val.toList : Multiset Nat) = numbers.val := Multiset.coe_toList _
  have within (n : Nat) : n ∈ numbers.val.toList ↔ n ∈ numbers := Multiset.mem_toList
  have distinct : numbers.val.toList.Nodup := by
    rw [← Multiset.coe_nodup,same]
    exact numbers.nodup
  have listed : resource.sourceNames.Perm
      (others ++ numbers.val.toList.map (generatedName pool)) := by
    rwa [← same,Multiset.map_coe,Multiset.coe_add,Multiset.coe_eq_coe] at listed
  have top := (within _).mpr (numbers.max'_mem present)
  obtain ⟨m,inside,outcome,best⟩ := latestGenerated_precedes distinct (List.ne_nil_of_mem top)
    foreign listed ordered
  constructor
  · intro found n member
    rw [outcome] at found
    have named := Option.some.inj (Except.ok.inj found)
    rw [← generatedName_injective pool named]
    exact best n ((within n).mpr member)
  · intro first
    rw [outcome,precedes_antisymm pool (best _ top) (first m ((within m).mp inside))]

/-- Three kubelet configs, of which the last has a number of two digits. -/
theorem latestGenerated_greatest_iff_nineteen :
    let resource := mergedFrom ["00-worker","99-worker-generated-kubelet",
      "99-worker-generated-kubelet-19","99-worker-generated-kubelet-3"]
    (latestGenerated resource).outcome = .ok (some "99-worker-generated-kubelet-19") ∧
      ({0,3,19} : Finset Nat).max' (by decide) = 19 := by
  refine ⟨?_,by decide⟩
  have named : generatedName "worker" 19 = "99-worker-generated-kubelet-19" := by decide +kernel
  rw [← named]
  exact (latestGenerated_greatest_iff "worker" {0,3,19} (by decide) ["00-worker"] _
    (by decide +kernel) (by decide +kernel) (by decide +kernel)).mpr (by decide +kernel)

/-- With eleven kubelet configs the tenth is found, although the eleventh is newer. -/
theorem latestGenerated_eleven :
    let resource := mergedFrom ["00-worker","99-worker-generated-kubelet",
      "99-worker-generated-kubelet-1","99-worker-generated-kubelet-10",
      "99-worker-generated-kubelet-2","99-worker-generated-kubelet-3",
      "99-worker-generated-kubelet-4","99-worker-generated-kubelet-5",
      "99-worker-generated-kubelet-6","99-worker-generated-kubelet-7",
      "99-worker-generated-kubelet-8","99-worker-generated-kubelet-9"]
    resource.sourceNames.Perm (["00-worker"] ++ (List.range 11).map (generatedName "worker")) ∧
      resource.sourceNames.Pairwise (· ≤ ·) ∧
      (latestGenerated resource).outcome = .ok (some (generatedName "worker" 9)) ∧
      (latestGenerated resource).outcome ≠ .ok (some (generatedName "worker" 10)) := by
  decide +kernel

end NodeAudit.Kubelet
