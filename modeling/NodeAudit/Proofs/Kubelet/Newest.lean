import NodeAudit.Kubelet.Generated

/-! Which generated machine config counts as a pool's newest. The scan keeps one candidate, whose
presence changes how the next name is read; the closed form ranks all candidates at once and takes
the earliest of those with the greatest number. -/
namespace NodeAudit.Kubelet

/-- Whether a name is one that a machine config made from a kubelet config can have. -/
def Candidate (name : String) : Prop :=
  generatedPrefix.toList <+: name.toList ∧ generatedMarker.toList <:+: name.toList

instance (name : String) : Decidable (Candidate name) := inferInstanceAs (Decidable (_ ∧ _))

/-- The candidates among the names of a pool's sources, in the order of merging. -/
def candidates (pool : MachineConfigPool) : List String :=
  pool.sourceNames.filter fun name => Candidate name

/-- The number that ranks a candidate, if it has one. -/
def rank? (first : Bool) (name : String) : Option Nat :=
  if first = true ∧ bareSuffix.toList <:+ name.toList then some 0
  else name.toList.getLast?.bind Ordinal.digit?

abbrev Ranked : Type := String × Option Nat

/-- Candidates with their numbers. A bare name has one only at the head. -/
def ranked : List String → List Ranked
  | [] => []
  | first :: rest => (first, rank? true first) :: rest.map fun name => (name, rank? false name)

/-- The earliest entry among those with the greatest number, where all have one. -/
def IsNewest (entries : List Ranked) (best : Generated) : Prop :=
  ∃ before after, entries = before ++ (best.name, some best.ordinal) :: after ∧
    (∀ entry ∈ before, ∃ n, entry.2 = some n ∧ n < best.ordinal) ∧
    ∀ entry ∈ after, ∃ n, entry.2 = some n ∧ n ≤ best.ordinal

theorem occurs_iff (word text : List Char) : occurs word text = true ↔ word <:+: text := by
  induction text with
  | nil => simp [occurs]
  | cons c text ih => simp [occurs,List.infix_cons_iff,ih]

theorem filter_isGenerated (pool : MachineConfigPool) :
    pool.sourceNames.filter isGenerated = candidates pool := by
  apply List.filter_congr
  intro name _
  rw [Bool.eq_iff_iff,decide_eq_true_iff]
  simp [isGenerated,occurs_iff,Candidate]

theorem candidate_nonempty (pool : MachineConfigPool) (name : String)
    (member : name ∈ candidates pool) : name.toList ≠ [] := by
  intro empty
  have starts := (List.mem_filter.mp member).2
  simp [Candidate,empty,generatedPrefix] at starts

theorem digit_small {c : Char} {d : Nat} (found : Ordinal.digit? c = some d) : d < 10 := by
  unfold Ordinal.digit? at found
  split at found
  next bounds =>
    have upper : c.toNat ≤ 57 := Char.le_def.mp bounds.2
    have value := Option.some.inj found
    omega
  next => contradiction

theorem read_singleton (c : Char) :
    Ordinal.read [c] = (Ordinal.digit? c).elim (.error .invalidDigit) .ok := by
  by_cases plus : c = '+'
  · subst c
    rfl
  · have single : Ordinal.read [c] = Ordinal.digits 0 [c] := by
      unfold Ordinal.read
      split <;> simp_all
    rw [single]
    unfold Ordinal.digits
    cases found : Ordinal.digit? c with
    | none => rfl
    | some d =>
      have small := digit_small found
      simp [show d < 4294967296 by omega,Ordinal.digits]

/-- Without a name before it that counts, a candidate is read as the first. -/
theorem newer_none (name : String) (nonempty : name.toList ≠ []) :
    newer none name = (rank? true name).elim (.error (.ordinal name .invalidDigit))
      fun n => .ok (some ⟨n,name⟩) := by
  obtain ⟨c,last⟩ := Option.isSome_iff_exists.mp (List.getLast?_isSome.mpr nonempty)
  unfold newer rank?
  by_cases bare : bareSuffix.toList <:+ name.toList
  · simp [isBare,bare]
  · cases found : Ordinal.digit? c <;>
      simp [isBare,bare,lastOrdinal,last,read_singleton,found]

theorem newer_some (top : Generated) (name : String) (nonempty : name.toList ≠ []) :
    newer (some top) name = (rank? false name).elim (.error (.ordinal name .invalidDigit))
      fun n => .ok (some (if top.ordinal < n then ⟨n,name⟩ else top)) := by
  obtain ⟨c,last⟩ := Option.isSome_iff_exists.mp (List.getLast?_isSome.mpr nonempty)
  unfold newer rank?
  cases found : Ordinal.digit? c <;> simp [lastOrdinal,last,read_singleton,found]

/-- One more candidate: what was the newest of those seen is replaced only by a greater number. -/
theorem isNewest_step (seen : List Ranked) (top : Generated) (name : String) (n : Nat)
    (newest : IsNewest seen top) :
    IsNewest (seen ++ [(name,some n)]) (if top.ordinal < n then ⟨n,name⟩ else top) := by
  obtain ⟨before,after,rfl,below,atMost⟩ := newest
  split
  next greater =>
    refine ⟨before ++ (top.name,some top.ordinal) :: after,[],by simp,?_,by simp⟩
    intro entry member
    rcases List.mem_append.mp member with early | late
    · obtain ⟨m,value,less⟩ := below entry early
      exact ⟨m,value,Nat.lt_trans less greater⟩
    · rcases List.mem_cons.mp late with rfl | late
      · exact ⟨top.ordinal,rfl,greater⟩
      · obtain ⟨m,value,le⟩ := atMost entry late
        exact ⟨m,value,Nat.lt_of_le_of_lt le greater⟩
  next notGreater =>
    refine ⟨before,after ++ [(name,some n)],by simp,below,?_⟩
    intro entry member
    rcases List.mem_append.mp member with late | last
    · exact atMost entry late
    · obtain rfl := List.mem_singleton.mp last
      exact ⟨n,rfl,Nat.le_of_not_lt notGreater⟩

theorem foldlM_newer (names : List String) (nonempty : ∀ name ∈ names, name.toList ≠ [])
    (all : ∀ name ∈ names, rank? false name ≠ none) (seen : List Ranked) (top : Generated)
    (newest : IsNewest seen top) :
    ∃ best, names.foldlM newer (some top) = .ok (some best) ∧
      IsNewest (seen ++ names.map fun name => (name,rank? false name)) best := by
  induction names generalizing seen top with
  | nil => exact ⟨top,rfl,by simpa using newest⟩
  | cons name rest ih =>
    obtain ⟨n,value⟩ := Option.ne_none_iff_exists'.mp (all name (by simp))
    obtain ⟨best,run,isBest⟩ := ih (fun other member => nonempty other (by simp [member]))
      (fun other member => all other (by simp [member])) _ _ (isNewest_step seen top name n newest)
    refine ⟨best,?_,by simpa [value] using isBest⟩
    rw [List.foldlM_cons,newer_some top name (nonempty name (by simp)),value]
    exact run

/-- The scan ends at the first candidate without a number, whatever stands after it. -/
theorem foldlM_newer_unranked (before after : List String) (name : String)
    (nonempty : ∀ other ∈ before, other.toList ≠ []) (given : name.toList ≠ [])
    (all : ∀ other ∈ before, rank? false other ≠ none) (unranked : rank? false name = none)
    (top : Generated) :
    (before ++ name :: after).foldlM newer (some top) = .error (.ordinal name .invalidDigit) := by
  induction before generalizing top with
  | nil =>
    rw [List.nil_append,List.foldlM_cons,newer_some top name given,unranked]
    rfl
  | cons other rest ih =>
    obtain ⟨n,value⟩ := Option.ne_none_iff_exists'.mp (all other (by simp))
    rw [List.cons_append,List.foldlM_cons,newer_some top other (nonempty other (by simp)),value]
    exact ih (fun o member => nonempty o (by simp [member])) (fun o member => all o (by simp [member])) _

/-- The scan over all candidates, when each has a number. -/
theorem newest_ranked (names : List String) (nonempty : ∀ name ∈ names, name.toList ≠ [])
    (present : names ≠ []) (all : ∀ entry ∈ ranked names, entry.2 ≠ none) :
    ∃ best, names.foldlM newer none = .ok (some best) ∧ IsNewest (ranked names) best := by
  cases names with
  | nil => contradiction
  | cons first rest =>
    have head : rank? true first ≠ none := all (first,rank? true first) List.mem_cons_self
    have tail : ∀ name ∈ rest, rank? false name ≠ none := fun name member =>
      all (name,rank? false name) (List.mem_cons_of_mem _ (List.mem_map_of_mem member))
    obtain ⟨n,value⟩ := Option.ne_none_iff_exists'.mp head
    obtain ⟨best,run,isBest⟩ := foldlM_newer rest (fun name member => nonempty name (by simp [member]))
      tail [(first,some n)] ⟨n,first⟩ ⟨[],[],rfl,by simp,by simp⟩
    refine ⟨best,?_,by simpa [ranked,value] using isBest⟩
    rw [List.foldlM_cons,newer_none first (nonempty first (by simp)),value]
    exact run

theorem newest_unranked (names : List String) (nonempty : ∀ name ∈ names, name.toList ≠ [])
    (before : List Ranked) (name : String) (after : List Ranked)
    (split : ranked names = before ++ (name,none) :: after)
    (all : ∀ entry ∈ before, entry.2 ≠ none) :
    names.foldlM newer none = .error (.ordinal name .invalidDigit) := by
  cases names with
  | nil => simp [ranked] at split
  | cons first rest =>
    have given := nonempty first (by simp)
    rw [List.foldlM_cons,newer_none first given]
    cases before with
    | nil =>
      obtain ⟨same,unranked⟩ := Prod.mk.inj (List.cons.inj split).1
      subst same
      rw [unranked]
      rfl
    | cons entry others =>
      obtain ⟨head,tail⟩ := List.cons.inj split
      obtain ⟨early,late,rfl,mapped,ends⟩ := List.map_eq_append_iff.mp tail
      obtain ⟨last,rear,rfl,here,-⟩ := List.map_eq_cons_iff.mp ends
      obtain ⟨rfl,unranked⟩ := Prod.mk.inj here
      obtain ⟨n,value⟩ := Option.ne_none_iff_exists'.mp (all entry (by simp))
      have value : rank? true first = some n := by rw [← value,← head]
      rw [value]
      refine foldlM_newer_unranked early rear last (fun o member => nonempty o (by simp [member]))
        (nonempty last (by simp)) (fun o member => ?_) unranked ⟨n,first⟩
      exact all (o,rank? false o) (List.mem_cons_of_mem _ (mapped ▸ List.mem_map_of_mem member))

theorem first_unranked (entries : List Ranked) (failing : ∃ entry ∈ entries, entry.2 = none) :
    ∃ before name after, entries = before ++ (name,none) :: after ∧
      ∀ entry ∈ before, entry.2 ≠ none := by
  induction entries with
  | nil => simp at failing
  | cons entry rest ih =>
    cases value : entry.2 with
    | none => exact ⟨[],entry.1,rest,by rw [← value]; rfl,by simp⟩
    | some n =>
      obtain ⟨before,name,after,split,all⟩ := ih (by simpa [value] using failing)
      exact ⟨entry :: before,name,after,by rw [split]; rfl,by simpa [value] using all⟩

theorem latestGenerated_of_newest (pool : MachineConfigPool) (result : Except Fault (Option Generated))
    (run : (candidates pool).foldlM newer none = result) :
    (latestGenerated pool).outcome = result.map fun newest => newest.map (·.name) := by
  have scan : newest? pool.sourceNames = result := by rw [newest?,filter_isGenerated,run]
  unfold latestGenerated
  rw [scan]
  rcases result with fault | (_ | newest) <;> rfl

/-- A pool has no newest generated machine config exactly if it has no candidate. The scan fails
exactly if some candidate has no number, with the name of the first such and for its digit.
Otherwise the newest is the earliest of the candidates with the greatest number. -/
theorem latestGenerated_outcome (pool : MachineConfigPool) :
    ((latestGenerated pool).outcome = .ok none ↔ candidates pool = []) ∧
    ((∃ fault, (latestGenerated pool).outcome = .error fault) ↔
      ∃ entry ∈ ranked (candidates pool), entry.2 = none) ∧
    (∀ before name after, ranked (candidates pool) = before ++ (name,none) :: after →
      (∀ entry ∈ before, entry.2 ≠ none) →
      (latestGenerated pool).outcome = .error (.ordinal name .invalidDigit)) ∧
    (candidates pool ≠ [] → (∀ entry ∈ ranked (candidates pool), entry.2 ≠ none) →
      ∃ best, IsNewest (ranked (candidates pool)) best ∧
        (latestGenerated pool).outcome = .ok (some best.name)) := by
  have nonempty := candidate_nonempty pool
  have empty (absent : candidates pool = []) : (latestGenerated pool).outcome = .ok none :=
    latestGenerated_of_newest pool (.ok none) (by rw [absent]; rfl)
  have unranked : ∀ before name after, ranked (candidates pool) = before ++ (name,none) :: after →
      (∀ entry ∈ before, entry.2 ≠ none) →
      (latestGenerated pool).outcome = .error (.ordinal name .invalidDigit) :=
    fun before name after split all => latestGenerated_of_newest pool _
      (newest_unranked _ nonempty before name after split all)
  have best : candidates pool ≠ [] → (∀ entry ∈ ranked (candidates pool), entry.2 ≠ none) →
      ∃ best, IsNewest (ranked (candidates pool)) best ∧
        (latestGenerated pool).outcome = .ok (some best.name) := by
    intro present all
    obtain ⟨best,run,isBest⟩ := newest_ranked _ nonempty present all
    exact ⟨best,isBest,latestGenerated_of_newest pool _ run⟩
  have fails (failing : ∃ entry ∈ ranked (candidates pool), entry.2 = none) :
      ∃ fault, (latestGenerated pool).outcome = .error fault := by
    obtain ⟨before,name,after,split,all⟩ := first_unranked _ failing
    exact ⟨_,unranked before name after split all⟩
  -- Each outcome excludes the other two, so the two equivalences need only be read off.
  by_cases absent : candidates pool = []
  · have nothing := empty absent
    refine ⟨⟨fun _ => absent,empty⟩,⟨fun ⟨fault,failed⟩ => ?_,fails⟩,unranked,best⟩
    simp [nothing] at failed
  · by_cases failing : ∃ entry ∈ ranked (candidates pool), entry.2 = none
    · obtain ⟨fault,failed⟩ := fails failing
      refine ⟨⟨fun nothing => ?_,empty⟩,⟨fun _ => failing,fails⟩,unranked,best⟩
      simp [failed] at nothing
    · obtain ⟨newest,-,found⟩ := best absent fun entry member none => failing ⟨entry,member,none⟩
      refine ⟨⟨fun nothing => ?_,empty⟩,⟨fun ⟨fault,failed⟩ => ?_,fails⟩,unranked,best⟩
      · simp [found] at nothing
      · simp [found] at failed

/-- A pool with nothing but the names of its sources. -/
def mergedFrom (names : List String) : MachineConfigPool :=
  { spec := { configuration := { source := names.map fun name => { name := some name } } } }

/-- A bare name after a numbered one has no number. -/
theorem latestGenerated_outcome_late_bare :
    (latestGenerated (mergedFrom ["00-worker","99-worker-generated-kubelet-2",
      "99-worker-generated-kubelet"])).outcome =
      .error (.ordinal "99-worker-generated-kubelet" .invalidDigit) :=
  (latestGenerated_outcome _).2.2.1 [("99-worker-generated-kubelet-2",some 2)] _ []
    (by decide +kernel) (by decide)

end NodeAudit.Kubelet
