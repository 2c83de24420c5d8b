import NodeAudit.Proofs.Json.Encoding
import NodeAudit.Proofs.Json.Nesting
import NodeAudit.Proofs.Json.Real

/-! The compact text of a value is written by the grammar, and it is well-formed UTF-8. -/
namespace NodeAudit.Json
open Utf8

theorem spells_body {body bytes : Bytes} (spelled : Spells body bytes) : Body body := by
  induction spelled with
  | nil => exact .nil
  | plain quote backslash control _ ih => exact .plain quote backslash control ih
  | escape known _ ih => exact .escape (Option.isSome_of_mem known) ih
  | unit hex _ _ _ ih => exact .unit (Option.isSome_of_mem hex) ih
  | pair high _ low _ _ ih =>
    exact .unit (Option.isSome_of_mem high) (.unit (Option.isSome_of_mem low) ih)

/-- A byte that stands for itself in a string. -/
def Plain (b : UInt8) : Prop := b ≠ ascii '"' ∧ b ≠ ascii '\\' ∧ ¬b < 0x20

theorem spells_plain {plain : Bytes} (inside : ∀ b ∈ plain, Plain b) {s t : Bytes}
    (rest : Spells s t) : Spells (plain ++ s) (plain ++ t) := by
  induction plain with
  | nil => exact rest
  | cons b plain ih =>
    obtain ⟨⟨quote,backslash,control⟩,others⟩ := List.forall_mem_cons.mp inside
    exact .plain quote backslash control (ih others)

theorem plain_ofNat {n : Nat} (small : n < 256) (quote : n ≠ 0x22) (backslash : n ≠ 0x5C)
    (control : 0x20 ≤ n) : Plain (UInt8.ofNat n) := by
  refine ⟨fun same => quote ((ofNat_eq_iff small _).mp same),
    fun same => backslash ((ofNat_eq_iff small _).mp same),fun less => ?_⟩
  rw [UInt8.lt_iff_toNat_lt,toNat_ofNat small] at less
  exact absurd less (Nat.not_lt.mpr control)

theorem plain_encodeChar {c : Char} (quote : c ≠ '"') (backslash : c ≠ '\\')
    (control : ¬c.toNat < 0x20) : ∀ b ∈ String.utf8EncodeChar c, Plain b := by
  have first : c.toNat ≠ 0x22 := fun same => quote (Char.toNat_inj.mp same)
  have second : c.toNat ≠ 0x5C := fun same => backslash (Char.toNat_inj.mp same)
  have high {n : Nat} (small : n < 256) (above : 0x80 ≤ n) : Plain (UInt8.ofNat n) :=
    plain_ofNat small (by omega) (by omega) (by omega)
  rcases encodeChar_forms c with ⟨_,form⟩ | ⟨_,_,form⟩ | ⟨_,_,form⟩ | ⟨_,_,form⟩
  · rw [form,List.forall_mem_singleton]
    exact plain_ofNat (by omega) first second (by omega)
  · rw [form,List.forall_mem_cons,List.forall_mem_singleton]
    exact ⟨high (by omega) (by omega),high (by omega) (by omega)⟩
  · rw [form,List.forall_mem_cons,List.forall_mem_cons,List.forall_mem_singleton]
    exact ⟨high (by omega) (by omega),high (by omega) (by omega),high (by omega) (by omega)⟩
  · rw [form,List.forall_mem_cons,List.forall_mem_cons,List.forall_mem_cons,
      List.forall_mem_singleton]
    exact ⟨high (by omega) (by omega),high (by omega) (by omega),high (by omega) (by omega),
      high (by omega) (by omega)⟩

theorem spells_control {c : Char} (control : c.toNat < 0x20) {s t : Bytes} (rest : Spells s t) :
    Spells ([ascii '\\',ascii 'u',ascii '0',ascii '0',ascii (hexDigit (c.toNat / 16)),
      ascii (hexDigit (c.toNat % 16))] ++ s) (String.utf8EncodeChar c ++ t) := by
  have hex : ∀ n, n < 0x20 → Read.unit? (ascii '0') (ascii '0') (ascii (hexDigit (n / 16)))
      (ascii (hexDigit (n % 16))) = some n := by decide
  have alone : ∀ n, n < 0x20 → Read.leading n = false ∧ Read.trailing n = false := by decide
  obtain ⟨leads,trails⟩ := alone _ control
  have spelled := Spells.unit (hex _ control) leads trails rest
  rw [Char.ofNat_toNat] at spelled
  exact spelled

theorem encodeChar_of_toNat {c : Char} {b : UInt8} (small : b < 0x80) (code : c.toNat = b.toNat) :
    String.utf8EncodeChar c = [b] := by
  rw [← encodeChar_ascii b small,← code,Char.ofNat_toNat]

theorem spells_escaped (c : Char) {s t : Bytes} (rest : Spells s t) :
    Spells (escaped c ++ s) (String.utf8EncodeChar c ++ t) := by
  rw [escaped]
  iterate 5
    split
    next same =>
      subst same
      exact .escape (by decide) rest
  next quote backslash _ _ _ =>
  split
  next back =>
    rw [encodeChar_of_toNat (show (0x08 : UInt8) < 0x80 by decide) back]
    exact .escape (by decide) rest
  split
  next feed =>
    rw [encodeChar_of_toNat (show (0x0C : UInt8) < 0x80 by decide) feed]
    exact .escape (by decide) rest
  split
  next control => exact spells_control control rest
  next control => exact spells_plain (plain_encodeChar quote backslash control) rest

/-- What stands between the quotes of a compact text spells it. -/
theorem spells_text (text : String) : Spells (text.toList.flatMap escaped) (bytes text) := by
  rw [bytes,encode]
  induction text.toList with
  | nil => exact .nil
  | cons c chars ih =>
    rw [List.flatMap_cons,List.flatMap_cons]
    exact spells_escaped c ih

theorem valid_of_small {s : Bytes} (small : ∀ b ∈ s, b < 0x80) : Valid s := by
  induction s with
  | nil => exact ⟨[],rfl⟩
  | cons b s ih =>
    obtain ⟨first,others⟩ := List.forall_mem_cons.mp small
    exact (valid_cons_iff first s).mpr (ih others)

theorem valid_digits {s : Bytes} (digits : Digits s) : Valid s := by
  refine valid_of_small fun b member => ?_
  obtain ⟨d,found⟩ := Option.isSome_iff_exists.mp (digits b member)
  rw [digit?] at found
  split at found
  next range =>
    have upper := UInt8.le_iff_toNat_le.mp range.2
    rw [UInt8.lt_iff_toNat_lt]
    exact upper.trans_lt (by decide)
  next => contradiction

theorem valid_whole {s : Bytes} (whole : Whole s) : Valid s := by
  cases whole with
  | zero => exact valid_ascii (by decide)
  | digits lead _ inside => exact valid_digits (List.forall_mem_cons.mpr ⟨lead,inside⟩)

theorem valid_fraction {s : Bytes} (fraction : Fraction s) : Valid s := by
  cases fraction with
  | absent => exact ⟨[],rfl⟩
  | digits _ inside => exact (valid_cons_iff (by decide) _).mpr (valid_digits inside)

theorem valid_exponent {s : Bytes} (exponent : Exponent s) : Valid s := by
  have letter {b : UInt8} (letters : b = ascii 'e' ∨ b = ascii 'E') : b < 0x80 := by
    rcases letters with rfl | rfl <;> decide
  have sign {b : UInt8} (signs : b = ascii '+' ∨ b = ascii '-') : b < 0x80 := by
    rcases signs with rfl | rfl <;> decide
  cases exponent with
  | absent => exact ⟨[],rfl⟩
  | plain letters _ inside => exact (valid_cons_iff (letter letters) _).mpr (valid_digits inside)
  | signed letters signs _ inside =>
    rw [valid_cons_iff (letter letters),valid_cons_iff (sign signs)]
    exact valid_digits inside

theorem valid_magnitude {s : Bytes} (number : Magnitude s) : Valid s := by
  obtain ⟨first,second,third⟩ := number
  exact valid_append (valid_whole first) (valid_append (valid_fraction second) (valid_exponent third))

/-- A value by the grammar, in well-formed UTF-8. -/
def Proper (s : Bytes) : Prop := Written .value s ∧ Valid s

theorem proper_number (x : Number) : Proper (compactNumber x) := by
  obtain ⟨negative,s,shape,number,-⟩ := Read.recovers_number x
  rw [shape]
  cases negative with
  | false => exact ⟨.positive number,valid_magnitude number⟩
  | true => exact ⟨.negative number,(valid_cons_iff (by decide) s).mpr (valid_magnitude number)⟩

theorem proper_text (text : String) : Proper (compactText text) := by
  have spelled := spells_text text
  refine ⟨.text (spells_body spelled),(valid_cons_iff (by decide) _).mpr ?_⟩
  exact valid_append ((spells_valid_iff spelled []).mpr (valid_bytes text)) (valid_ascii (by decide))

theorem valid_separated {parts : List Bytes} (valid : ∀ part ∈ parts, Valid part) :
    Valid (separated parts) := by
  fun_induction separated parts with
  | case1 => exact ⟨[],rfl⟩
  | case2 part => exact valid part List.mem_cons_self
  | case3 part rest _ ih =>
    obtain ⟨first,others⟩ := List.forall_mem_cons.mp valid
    exact valid_append first ((valid_cons_iff (by decide) _).mpr (ih others))

theorem separated_items {parts : List Bytes} (given : parts ≠ [])
    (values : ∀ part ∈ parts, Written .value part) : Written .items (separated parts) := by
  fun_induction separated parts with
  | case1 => contradiction
  | case2 part =>
    have last := Written.lastItem Read.blanks_nil (values part List.mem_cons_self) Read.blanks_nil
    rwa [List.append_nil,List.nil_append] at last
  | case3 part rest more ih =>
    obtain ⟨first,others⟩ := List.forall_mem_cons.mp values
    exact .nextItem Read.blanks_nil first Read.blanks_nil (ih more others)

theorem proper_array {parts : List Bytes} (proper : ∀ part ∈ parts, Proper part) :
    Proper (compactArray parts) := by
  refine ⟨?_,(valid_cons_iff (by decide) _).mpr
    (valid_append (valid_separated fun part member => (proper part member).2)
      (valid_ascii (by decide)))⟩
  by_cases none : parts = []
  · rw [none]
    exact .emptyArray Read.blanks_nil
  · exact .array (separated_items none fun part member => (proper part member).1)

section
variable {α : Type} {denotes : Bytes → α → Prop}

theorem members_written (stronger : ∀ v a, denotes v a → Written .value v) {s : Bytes}
    {list : List (String × α)} (members : Members denotes s list) : Written .members s := by
  induction members with
  | last only =>
    obtain ⟨first,spelled,second,third,value,fourth⟩ := only
    exact .lastMember first (spells_body spelled) second third (stronger _ _ value) fourth
  | next one _ ih =>
    obtain ⟨first,spelled,second,third,value,fourth⟩ := one
    have whole := Written.nextMember first (spells_body spelled) second third (stronger _ _ value)
      fourth ih
    simpa only [List.append_assoc,List.cons_append] using whole

theorem object_written (stronger : ∀ v a, denotes v a → Written .value v) {s : Bytes}
    {list : List (String × α)} (object : Object denotes s list) : Written .value s := by
  cases object with
  | empty inside => exact .emptyObject inside
  | members inside => exact .object (members_written stronger inside)

/-- A member whose value is written already, beside what it denotes. -/
def Pair (denotes : Bytes → α → Prop) (entry : String × Bytes) (member : String × α) : Prop :=
  entry.1 = member.1 ∧ denotes entry.2 member.2

theorem member_compact {entry : String × Bytes} {member : String × α}
    (pair : Pair denotes entry member) :
    Member denotes (compactText entry.1 ++ ascii ':' :: entry.2) member := by
  obtain ⟨name,v⟩ := entry
  obtain ⟨key,a⟩ := member
  obtain ⟨rfl,value⟩ := pair
  have whole := Member.parts Read.blanks_nil (spells_text name) Read.blanks_nil Read.blanks_nil value
    Read.blanks_nil
  simpa only [compactText,List.nil_append,List.append_nil,List.append_assoc,List.cons_append]
    using whole

theorem members_compact {entry : String × Bytes} {member : String × α}
    (first : Pair denotes entry member) {entries : List (String × Bytes)}
    {list : List (String × α)} (others : List.Forall₂ (Pair denotes) entries list) :
    Members denotes (separated ((entry :: entries).map fun m =>
      compactText m.1 ++ ascii ':' :: m.2)) (member :: list) := by
  induction others generalizing entry member with
  | nil => exact .last (member_compact first)
  | cons second _ ih => exact .next (member_compact first) (ih second)

/-- The compact text of an object, whatever its members' values denote. -/
theorem object_compact {entries : List (String × Bytes)} {list : List (String × α)}
    (pairs : List.Forall₂ (Pair denotes) entries list) :
    Object denotes (compactObject entries) list := by
  cases pairs with
  | nil => exact .empty Read.blanks_nil
  | cons first others => exact .members (members_compact first others)

end

theorem pairs_verbatim {entries : List (String × Bytes)}
    (values : ∀ entry ∈ entries, Written .value entry.2) :
    List.Forall₂ (Pair Verbatim) entries entries :=
  List.forall₂_same.mpr fun entry member => ⟨rfl,values entry member,rfl⟩

theorem proper_object {entries : List (String × Bytes)}
    (proper : ∀ entry ∈ entries, Proper entry.2) : Proper (compactObject entries) := by
  have object := object_compact (pairs_verbatim fun entry member => (proper entry member).1)
  have document := Document.parts Read.blanks_nil object Read.blanks_nil
  rw [List.nil_append,List.append_nil] at document
  exact ⟨object_written (fun _ _ verbatim => verbatim.1) object,
    (document_valid_iff (fun _ _ verbatim => verbatim.2) document).mpr
      fun entry member => (proper entry member).2⟩

theorem compactItems_eq_map (items : List Json) : compactItems items = items.map compact := by
  induction items with
  | nil => rfl
  | cons item items ih => rw [compactItems,ih,List.map_cons]

theorem compactMembers_eq_map (members : List (String × Json)) :
    compactMembers members = members.map fun member => (member.1,compact member.2) := by
  induction members with
  | nil => rfl
  | cons member members ih =>
    obtain ⟨name,value⟩ := member
    rw [compactMembers,ih,List.map_cons]

mutual

theorem proper_compact (value : Json) : Proper (compact value) :=
  match value with
  | .null => ⟨.null,"null".toList,by decide⟩
  | .boolean true => ⟨.true,"true".toList,by decide⟩
  | .boolean false => ⟨.false,"false".toList,by decide⟩
  | .number x => proper_number x
  | .text s => proper_text s
  | .array items => proper_array (proper_items items)
  | .object members => proper_object (proper_members members)

theorem proper_items (items : List Json) : ∀ part ∈ compactItems items, Proper part :=
  match items with
  | [] => List.forall_mem_nil _
  | item :: items => List.forall_mem_cons.mpr ⟨proper_compact item,proper_items items⟩

theorem proper_members (members : List (String × Json)) :
    ∀ entry ∈ compactMembers members, Proper entry.2 :=
  match members with
  | [] => List.forall_mem_nil _
  | (_,value) :: members => List.forall_mem_cons.mpr ⟨proper_compact value,proper_members members⟩

end

end NodeAudit.Json
