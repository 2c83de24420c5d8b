import NodeAudit.Proofs.Codec.Consumed
import NodeAudit.Proofs.Codec.Taken
import NodeAudit.Proofs.Resource.Restored
import NodeAudit.Resource.MachineConfigPool

/-! Which pool a selector means, told by the documents that the pools are read from. The labels that
a document states are all that counts. -/
namespace NodeAudit
open Json Codec

namespace MachineConfigPool

/-- A document states a label of the nodes of its pool. -/
inductive States (document : Bytes) (key value : String) : Prop where
  | parts {before text after spec selector labels raw : Bytes} (first : Blanks before)
      (second : Blanks after) (whole : document = before ++ (text ++ after))
      (specified : Under ["metadata","spec"] text "spec" spec)
      (selects : Under ["machineConfigSelector","nodeSelector","paused","configuration"] spec
        "nodeSelector" selector)
      (labelled : Last selector "matchLabels" labels) (listed : Last labels key raw)
      (quoted : Quotes raw value) : States document key value

variable {document : Bytes} {pool : MachineConfigPool}

theorem fields_consume : ∀ field ∈ fields, field.Consumes := by
  simp [fields,Metadata.codec_consumes,PoolSpec.codec_consumes]

/-- A pool is made of the one text in its document. -/
theorem takes_of_gives (gives : Kind.machineConfigPool.Gives document pool) :
    ∃ before text after, Blanks before ∧ Blanks after ∧ document = before ++ (text ++ after) ∧
      (strict Kind.machineConfigPool.name {} fields).Takes (126 + 1) text pool := by
  obtain direct | ⟨v,value,given⟩ := gives
  · obtain ⟨after,read,white⟩ := (Read.document_iff _ _ _).mp direct
    obtain ⟨before,text,blanks,takes,rfl⟩ :=
      takes_sound (strict_consumes fields_consume) _ _ _ _ read
    exact ⟨before,text,after,blanks,white,rfl,takes⟩
  · obtain ⟨before,text,after,blanks,means,white,rfl⟩ := (parse_iff document v).mp value
    exact ⟨before,text,after,blanks,white,rfl,means_written means,.inr ⟨v,means,given⟩⟩

section
variable {text : Bytes} {depth : Nat}

theorem spec_draws {name : String} (takes : (strict name {} fields).Takes (depth + 1) text pool) :
    specCodec.Draws depth (Under ["metadata","spec"] text "spec") {} pool.spec := by
  have draws := strict_draws layout fields_consume takes
  simp only [layout,List.forall_mem_cons] at draws
  exact Slot.need_draws draws.2.1

theorem nodeSelector_draws {spec : PoolSpec} (takes : specCodec.Takes (depth + 1) text spec) :
    LabelSelector.codec.optional.Draws depth
      (Under ["machineConfigSelector","nodeSelector","paused","configuration"] text "nodeSelector")
      none spec.nodeSelector := by
  have each : ∀ field ∈ specLaid.fields, field.Consumes := by
    simp [specLaid,LabelSelector.codec_consumes,PoolConfiguration.codec_consumes]
  have draws := strict_draws specLaid.layout each takes
  simp only [specLaid,List.forall_mem_cons] at draws
  exact Slot.of_draws draws.2.1

theorem matchLabels_draws {selector : LabelSelector}
    (takes : LabelSelector.codec.Takes (depth + 1) text selector) :
    (Codec.map .string).optional.Draws depth (Last text "matchLabels") none selector.matchLabels := by
  have each : ∀ field ∈ LabelSelector.laid.fields, field.Consumes := by
    simp [LabelSelector.laid,LabelRequirement.codec_consumes]
  have draws := lenient_draws LabelSelector.laid.layout each takes
  simp only [LabelSelector.laid,List.forall_mem_cons] at draws
  exact Slot.maybe_draws draws.2.1

end

/-- The labels that a pool asks of its nodes are those that its document states. -/
theorem states_of_labels (gives : Kind.machineConfigPool.Gives document pool) {labels : Labels}
    (given : pool.matchLabels = some labels) {key value : String}
    (found : labels.get? key = some value) : States document key value := by
  obtain ⟨before,text,after,first,second,rfl,takes⟩ := takes_of_gives gives
  obtain ⟨selector,chosen,labelled⟩ := Option.bind_eq_some_iff.mp given
  have other : pool.spec ≠ {} := by
    intro same
    rw [same] at chosen
    contradiction
  obtain ⟨spec,specified,takes⟩ := (spec_draws takes).exists other
  obtain ⟨s,selects,takes⟩ := (chosen ▸ nodeSelector_draws takes).exists_some
  obtain ⟨l,listed,takes⟩ := (labelled ▸ matchLabels_draws takes).exists_some
  obtain ⟨raw,last,quoted⟩ := (texts_get?_iff takes key value).mp found
  exact .parts first second rfl specified selects listed last quoted

theorem labels_of_states (gives : Kind.machineConfigPool.Gives document pool) {key value : String}
    (states : States document key value) :
    ∃ labels, pool.matchLabels = some labels ∧ labels.get? key = some value := by
  obtain ⟨before,text,after,blanks,white,whole,takes⟩ := takes_of_gives gives
  obtain @⟨lead,record,rear,spec,s,l,raw,first,second,same,specified,selects,listed,last,quoted⟩ :=
    states
  -- One document has one text of a record in it, so both sides are about the same.
  have ends := Read.consumed_unique first specified.written (Read.delimited_blanks second) blanks
    takes.written (Read.delimited_blanks white) (same.symm.trans whole)
  subst ends
  obtain rfl := text_unique first specified.written blanks takes.written (same.symm.trans whole)
  have takes := (spec_draws takes).given spec specified
  obtain ⟨selector,chosen,takes⟩ := (nodeSelector_draws takes).given_some selects listed.solid
  obtain ⟨labels,labelled,takes⟩ := (matchLabels_draws takes).given_some listed last.solid
  refine ⟨labels,?_,(texts_get?_iff takes key value).mpr ⟨raw,last,quoted⟩⟩
  rw [matchLabels,chosen]
  exact labelled

/-- The nodes of a pool must have just the labels of a selector, of which there is one at least. -/
def Demands (pool : MachineConfigPool) (selector : Labels) : Prop :=
  selector.entries ≠ [] ∧ ∃ node labels, pool.spec.nodeSelector = some node ∧
    node.matchLabels = some labels ∧ ∀ key, labels.get? key = selector.get? key

/-- A document states just the labels of a selector, of which there is one at least. -/
def Asks (document : Bytes) (selector : Labels) : Prop :=
  selector.entries ≠ [] ∧ ∀ key value, selector.get? key = some value ↔ States document key value

theorem demands_iff (selector : Labels) : pool.Demands selector ↔
    selector.entries ≠ [] ∧ pool.matchLabels = some selector := by
  refine and_congr_right fun _ => ?_
  constructor
  · rintro ⟨node,labels,chosen,labelled,same⟩
    rw [matchLabels,chosen,← SortedMap.ext_get? same]
    exact labelled
  · intro given
    obtain ⟨node,chosen,labelled⟩ := Option.bind_eq_some_iff.mp given
    exact ⟨node,selector,chosen,labelled,fun _ => rfl⟩

theorem matchedBy_iff (selector : Labels) : pool.matchedBy selector = true ↔ pool.Demands selector := by
  rw [demands_iff,matchedBy]
  cases pool.matchLabels with
  | none => simp
  | some labels =>
    simp only [Bool.and_eq_true,beq_iff_eq,Option.some.injEq,SortedMap.isEmpty,Bool.not_eq_true',
      List.isEmpty_eq_false_iff]
    constructor
    · rintro ⟨⟨given,-⟩,rfl⟩
      exact ⟨given,rfl⟩
    · rintro ⟨given,rfl⟩
      exact ⟨⟨given,given⟩,rfl⟩

theorem demands_iff_asks (gives : Kind.machineConfigPool.Gives document pool) (selector : Labels) :
    pool.Demands selector ↔ Asks document selector := by
  rw [demands_iff]
  refine and_congr_right fun given => ?_
  constructor
  · intro same key value
    refine ⟨states_of_labels gives same,fun states => ?_⟩
    obtain ⟨labels,own,found⟩ := labels_of_states gives states
    obtain rfl := Option.some.inj (own.symm.trans same)
    exact found
  · intro stated
    obtain ⟨⟨key,value⟩,rest,shape⟩ := List.exists_cons_of_ne_nil given
    have first : (key,value) ∈ selector.entries := shape ▸ List.mem_cons_self
    obtain ⟨labels,own,-⟩ := labels_of_states gives
      ((stated key value).mp ((SortedMap.get?_eq_some_iff _ _ _).mpr first))
    rw [own]
    refine congrArg some (SortedMap.ext_get? fun key => Option.ext fun value => ?_)
    rw [stated]
    refine ⟨states_of_labels gives own,fun states => ?_⟩
    obtain ⟨others,same,found⟩ := labels_of_states gives states
    obtain rfl := Option.some.inj (same.symm.trans own)
    exact found

theorem firstMatchIndex_eq_some_iff (selector : Labels) (pools : List MachineConfigPool) (i : Nat) :
    firstMatchIndex selector pools = some i ↔
      (∃ pool, pools[i]? = some pool ∧ pool.Demands selector) ∧
      ∀ j < i, ∀ pool, pools[j]? = some pool → ¬pool.Demands selector := by
  simp only [firstMatchIndex,List.findIdx?_eq_some_iff_getElem,matchedBy_iff]
  constructor
  · rintro ⟨bound,demands,others⟩
    refine ⟨⟨_,List.getElem?_eq_getElem bound,demands⟩,fun j less pool there => ?_⟩
    obtain ⟨_,rfl⟩ := List.getElem?_eq_some_iff.mp there
    exact others j less
  · rintro ⟨⟨pool,there,demands⟩,others⟩
    obtain ⟨bound,rfl⟩ := List.getElem?_eq_some_iff.mp there
    exact ⟨bound,demands,fun j less => others j less _ (List.getElem?_eq_getElem _)⟩

/-- Pools that demand a selector at the same places have the first match at one place. -/
theorem firstMatchIndex_congr {pools twins : List MachineConfigPool} {selector : Labels}
    (alike : List.Forall₂ (fun pool twin : MachineConfigPool =>
      pool.Demands selector ↔ twin.Demands selector) pools twins) :
    firstMatchIndex selector pools = firstMatchIndex selector twins := by
  rw [firstMatchIndex,firstMatchIndex]
  induction alike with
  | nil => rfl
  | @cons pool twin _ _ same _ ih =>
    have head : pool.matchedBy selector = twin.matchedBy selector := by
      rw [Bool.eq_iff_iff,matchedBy_iff,matchedBy_iff,same]
    rw [List.findIdx?_cons,List.findIdx?_cons,head,ih]

/-- Documents that state the same labels give pools that demand the same selectors. -/
theorem demands_alike {documents others : List Bytes} {pools twins : List MachineConfigPool}
    (given : List.Forall₂ Kind.machineConfigPool.Gives documents pools)
    (again : List.Forall₂ Kind.machineConfigPool.Gives others twins)
    (same : List.Forall₂ (fun document other => ∀ key value,
      States document key value ↔ States other key value) documents others) (selector : Labels) :
    List.Forall₂ (fun pool twin : MachineConfigPool =>
      pool.Demands selector ↔ twin.Demands selector) pools twins := by
  induction same generalizing pools twins with
  | nil =>
    cases given
    cases again
    exact .nil
  | cons alike _ ih =>
    cases given with
    | cons first later =>
      cases again with
      | cons second others =>
        refine .cons ?_ (ih later others)
        rw [demands_iff_asks first,demands_iff_asks second,Asks,Asks]
        simp only [alike]

/-- The pool that a selector means is the first of those that are read from documents to demand just
the labels of the selector, and there is none if none demands them. What a pool demands is what
its document states, whatever else is in it, and the index stays the same for all documents that
state the same. A pool of no labels is not meant by any selector. -/
theorem firstMatch_outcome {documents : List Bytes} {pools : List MachineConfigPool}
    (given : List.Forall₂ Kind.machineConfigPool.Gives documents pools) (selector : Labels) :
    firstMatch selector pools = (firstMatchIndex selector pools).bind (pools[·]?) ∧
    (∀ i, firstMatchIndex selector pools = some i ↔
      (∃ pool, pools[i]? = some pool ∧ pool.Demands selector) ∧
      ∀ j < i, ∀ pool, pools[j]? = some pool → ¬pool.Demands selector) ∧
    (firstMatchIndex selector pools = none ↔ ∀ pool ∈ pools, ¬pool.Demands selector) ∧
    List.Forall₂ (fun document pool => ∀ other, Demands pool other ↔ Asks document other)
      documents pools ∧
    (∀ others twins, List.Forall₂ Kind.machineConfigPool.Gives others twins →
      List.Forall₂ (fun document other => ∀ key value,
        States document key value ↔ States other key value) documents others →
      firstMatchIndex selector twins = firstMatchIndex selector pools) ∧
    ∀ pool : MachineConfigPool, (∀ labels, pool.matchLabels = some labels → labels.entries = []) →
      ∀ other, ¬pool.Demands other := by
  refine ⟨List.find?_eq_bind_findIdx?_getElem?,firstMatchIndex_eq_some_iff selector pools,?_,?_,?_,?_⟩
  · simp only [firstMatchIndex,List.findIdx?_eq_none_iff,Bool.eq_false_iff,ne_eq,matchedBy_iff]
  · exact given.imp fun _ _ gives => demands_iff_asks gives
  · intro others twins again same
    exact (firstMatchIndex_congr (demands_alike given again same selector)).symm
  · intro pool bare other demands
    obtain ⟨filled,own⟩ := (demands_iff other).mp demands
    exact filled (bare other own)

/-- The labels of the pool in a document, if it is read. -/
def labels? (document : Bytes) : Option (Option Labels) :=
  match Kind.machineConfigPool.codec.parse document with
  | .ok pool => some pool.matchLabels
  | .error _ => none

theorem labels?_some {labels : Option Labels} (read : labels? document = some labels) :
    ∃ pool, Kind.machineConfigPool.Gives document pool ∧ pool.matchLabels = labels := by
  rw [labels?] at read
  split at read
  next pool given => exact ⟨pool,.inl given,Option.some.inj read⟩
  next => contradiction

/-- A pool of one of two labels. -/
def narrow : Bytes :=
  word "\x7b\"metadata\":\x7b\x7d,\"spec\":\x7b\"nodeSelector\":" ++
  word "\x7b\"matchLabels\":\x7b\"a\":\"1\"\x7d\x7d\x7d\x7d"

/-- A pool by position, with labels out of order of which one is given twice. -/
def repeated : Bytes :=
  word "[\x7b\x7d,[null,\x7b\"matchExpressions\":[\x7b\"key\":\"c\"\x7d]," ++
  word "\"matchLabels\":\x7b\"b\":\"2\",\"a\":\"0\",\"\\u0061\":\"1\"\x7d\x7d,true]]"

theorem firstMatch_outcome_repeated : ∃ pools,
    List.Forall₂ Kind.machineConfigPool.Gives [narrow,repeated,repeated] pools ∧
    firstMatchIndex (.ofList [("a","1"),("b","2")]) pools = some 1 ∧
    Asks repeated (.ofList [("a","1"),("b","2")]) := by
  have first : labels? narrow = some (some (.ofList [("a","1")])) := by decide +kernel
  have second : labels? repeated = some (some (.ofList [("a","1"),("b","2")])) := by decide +kernel
  obtain ⟨pool,gives,labels⟩ := labels?_some first
  obtain ⟨twin,again,others⟩ := labels?_some second
  have given : List.Forall₂ Kind.machineConfigPool.Gives [narrow,repeated,repeated]
      [pool,twin,twin] := .cons gives (.cons again (.cons again .nil))
  obtain ⟨-,places,-,asked,-⟩ := firstMatch_outcome given (.ofList [("a","1"),("b","2")])
  have demands : twin.Demands (.ofList [("a","1"),("b","2")]) :=
    (demands_iff _).mpr ⟨by decide,others⟩
  refine ⟨_,given,(places 1).mpr ⟨⟨twin,rfl,demands⟩,fun j less other there => ?_⟩,?_⟩
  · obtain rfl : j = 0 := by omega
    obtain rfl := Option.some.inj there
    rw [demands_iff,labels]
    decide
  · cases asked with
    | cons _ later =>
      cases later with
      | cons asks _ => exact (asks _).mp demands

end MachineConfigPool
end NodeAudit
