import Hrbl.Arrangement
import Hrbl.PrintingIni

/-!
# The lines of an INI text

What the INI exporter writes for a document, line by line: the values of a block behind the
header of its section, and the sections of its blocks after them. Every scalar outside of arrays
and every element of an array has one line, whatever the order of the members.
-/

namespace Hrbl

open Lib

/-! ## Lines -/

/-- A line: without anything, with the name of a section, or with a value and its key. -/
inductive IniLine where
  | blank
  | header (name : Bytes)
  | record (key : Bytes) (value : Scalar)
  | element (key : Bytes) (value : Scalar)
deriving Repr, DecidableEq

/-- A line with a value. -/
def IniLine.isRecord : IniLine → Bool
  | .blank => false
  | .header _ => false
  | .record _ _ => true
  | .element _ _ => true

/-- The scalar that a value is. -/
def Value.scalar? : Value → Option Scalar
  | .scalar s => some s
  | .block _ => none
  | .array _ => none

/-- The lines of the elements of an array, in their order. -/
def elementLines (key : Bytes) (elements : List Value) : List IniLine :=
  elements.filterMap fun value => value.scalar?.map (IniLine.element key)

/-- The lines of a member that is no block. -/
def memberLines (member : Bytes × Value) : List IniLine :=
  match member.2 with
  | .scalar s => [.record member.1 s]
  | .array elements => elementLines member.1 elements
  | .block _ => []

/-- The lines of the members that are no blocks. -/
def plainLines (members : List (Bytes × Value)) : List IniLine := members.flatMap memberLines

/-- The header of a section that has a name. -/
def headerLines (name : Bytes) : List IniLine := if name.length ≠ 0 then [.header name] else []

mutual

/-- The lines of a block, as a section of this name. -/
def blockLines (name : Bytes) : Value → List IniLine
  | .scalar _ => []
  | .array _ => []
  | .block members => headerLines name ++ (plainLines members ++
      if members.any isBlock then .blank :: nestedLines name members else [])

/-- The lines of the members that are blocks. -/
def nestedLines (section_ : Bytes) : List (Bytes × Value) → List IniLine
  | [] => []
  | (key, value) :: members => blockLines (newSection section_ key) value ++
      nestedLines section_ members

end

/-- The lines of a document. -/
def documentLines (document : Document) : List IniLine :=
  plainLines document ++ nestedLines [] document

/-! ## Arrays of containers -/

mutual

/-- No array in the value has a block or an array in it. -/
def Value.flat : Value → Bool
  | .scalar _ => true
  | .array elements => elements.all fun value => value.scalar?.isSome
  | .block members => membersFlat members

def membersFlat : List (Bytes × Value) → Bool
  | [] => true
  | (_, value) :: members => value.flat && membersFlat members

end

theorem membersFlat_eq (members : List (Bytes × Value)) :
    membersFlat members = members.all fun member => member.2.flat := by
  induction members with
  | nil => rfl
  | cons member members ih =>
    obtain ⟨key, value⟩ := member
    rw [membersFlat, List.all_cons, ih]

section

variable {order : List (Bytes × Value) → List (Bytes × Value) → Prop}

/-- Rearranged elements are the same scalars, and containers in the same places. -/
theorem RearrangedElements.scalars_eq {elements elements' : List Value}
    (h : RearrangedElements order elements elements') :
    elements'.map Value.scalar? = elements.map Value.scalar? := by
  induction elements generalizing elements' with
  | nil =>
    rw [RearrangedElements] at h
    rw [h]
  | cons value elements ih =>
    obtain ⟨value', rest, rfl, hvalue, hrest⟩ := h
    have hscalar : value'.scalar? = value.scalar? := by
      cases value with
      | scalar s =>
        rw [Rearranged] at hvalue
        rw [hvalue]
      | block members =>
        obtain ⟨_, _, rfl, -⟩ := hvalue
        rfl
      | array inner =>
        obtain ⟨_, rfl, -⟩ := hvalue
        rfl
    rw [List.map_cons, List.map_cons, hscalar, ih hrest]

theorem elementLines_eq (key : Bytes) (elements : List Value) : elementLines key elements =
    (elements.map Value.scalar?).filterMap fun s => s.map (IniLine.element key) := by
  rw [elementLines, List.filterMap_map]
  rfl

mutual

/-- Whether there are containers in arrays does not depend on the order of members. -/
theorem Rearranged.flat_eq (horder : ∀ l l', order l l' → l.Perm l') : ∀ {value value' : Value},
    Rearranged order value value' → value'.flat = value.flat
  | .scalar s, _, h => by
    rw [Rearranged] at h
    rw [h]
  | .array elements, _, ⟨elements', heq, h⟩ => by
    have hall : ∀ l : List Value, (l.all fun value => value.scalar?.isSome) =
        (l.map Value.scalar?).all Option.isSome := fun l => by
      rw [List.all_map]
      rfl
    rw [heq, Value.flat, Value.flat, hall, hall, h.scalars_eq]
  | .block members, _, ⟨mid, members', heq, hmid, hout⟩ => by
    rw [heq, Value.flat, Value.flat, ← RearrangedMembers.flat_eq horder hmid, membersFlat_eq,
      membersFlat_eq, (horder _ _ hout).all_eq]

theorem RearrangedMembers.flat_eq (horder : ∀ l l', order l l' → l.Perm l') :
    ∀ {members mid : List (Bytes × Value)}, RearrangedMembers order members mid →
      membersFlat mid = membersFlat members
  | [], _, h => by
    rw [RearrangedMembers] at h
    rw [h]
  | (key, value) :: members, _, ⟨value', rest, heq, hvalue, hrest⟩ => by
    rw [heq, membersFlat, membersFlat, hvalue.flat_eq horder,
      RearrangedMembers.flat_eq horder hrest]

end

theorem RearrangedDocument.flat_eq (horder : ∀ l l', order l l' → l.Perm l')
    {document document' : Document} (h : RearrangedDocument order document document') :
    membersFlat document' = membersFlat document := by
  obtain ⟨mid, hmid, hout⟩ := h
  rw [← hmid.flat_eq horder, membersFlat_eq, membersFlat_eq, (horder _ _ hout).all_eq]

end

/-! ## Records -/

mutual

/-- The lines for the values, one group for each scalar outside of arrays and for each array,
in the order of the tree. -/
def valueRecords (key : Bytes) : Value → List (List IniLine)
  | .scalar s => [[.record key s]]
  | .array elements => [elementLines key elements]
  | .block members => membersRecords members

def membersRecords : List (Bytes × Value) → List (List IniLine)
  | [] => []
  | (key, value) :: members => valueRecords key value ++ membersRecords members

end

theorem membersRecords_eq (members : List (Bytes × Value)) :
    membersRecords members = members.flatMap fun member => valueRecords member.1 member.2 := by
  induction members with
  | nil => rfl
  | cons member members ih =>
    obtain ⟨key, value⟩ := member
    rw [membersRecords, List.flatMap_cons, ih]

section

variable {order : List (Bytes × Value) → List (Bytes × Value) → Prop}

mutual

/-- The groups do not depend on the order of members but for their own order. -/
theorem Rearranged.records_perm (horder : ∀ l l', order l l' → l.Perm l') (key : Bytes) :
    ∀ {value value' : Value}, Rearranged order value value' →
      (valueRecords key value').Perm (valueRecords key value)
  | .scalar s, _, h => by
    rw [Rearranged] at h
    rw [h]
  | .array elements, _, ⟨elements', heq, h⟩ => by
    rw [heq, valueRecords, valueRecords, elementLines_eq, h.scalars_eq, ← elementLines_eq]
  | .block members, _, ⟨mid, members', heq, hmid, hout⟩ => by
    rw [heq, valueRecords, valueRecords]
    refine List.Perm.trans ?_ (RearrangedMembers.records_perm horder hmid)
    rw [membersRecords_eq, membersRecords_eq]
    exact (horder _ _ hout).symm.flatMap_right _

theorem RearrangedMembers.records_perm (horder : ∀ l l', order l l' → l.Perm l') :
    ∀ {members mid : List (Bytes × Value)}, RearrangedMembers order members mid →
      (membersRecords mid).Perm (membersRecords members)
  | [], _, h => by
    rw [RearrangedMembers] at h
    rw [h]
  | (key, value) :: members, _, ⟨value', rest, heq, hvalue, hrest⟩ => by
    rw [heq, membersRecords, membersRecords]
    exact (hvalue.records_perm horder key).append (RearrangedMembers.records_perm horder hrest)

end

theorem RearrangedDocument.records_perm (horder : ∀ l l', order l l' → l.Perm l')
    {document document' : Document} (h : RearrangedDocument order document document') :
    (membersRecords document').Perm (membersRecords document) := by
  obtain ⟨mid, hmid, hout⟩ := h
  refine List.Perm.trans ?_ (hmid.records_perm horder)
  rw [membersRecords_eq, membersRecords_eq]
  exact (horder _ _ hout).symm.flatMap_right _

end

/-- The groups of the members that are no blocks. -/
def plainRecords (members : List (Bytes × Value)) : List (List IniLine) :=
  (members.filter fun member => !isBlock member).map memberLines

@[simp] theorem isBlock_scalar (key : Bytes) (s : Scalar) : isBlock (key, .scalar s) = false := by
  cases s with
  | bool value => cases value <;> rfl
  | _ => rfl

@[simp] theorem isBlock_array (key : Bytes) (elements : List Value) :
    isBlock (key, .array elements) = false := rfl

@[simp] theorem isBlock_block (key : Bytes) (members : List (Bytes × Value)) :
    isBlock (key, .block members) = true := rfl

theorem plainRecords_cons_plain {member : Bytes × Value} (h : isBlock member = false)
    (members : List (Bytes × Value)) :
    plainRecords (member :: members) = memberLines member :: plainRecords members := by
  simp only [plainRecords, List.filter_cons, h, Bool.not_false, if_true, List.map_cons]

theorem plainRecords_cons_block {member : Bytes × Value} (h : isBlock member = true)
    (members : List (Bytes × Value)) :
    plainRecords (member :: members) = plainRecords members := by
  simp only [plainRecords, List.filter_cons, h, Bool.not_true, Bool.false_eq_true, if_false]

theorem elementLines_isRecord (key : Bytes) (elements : List Value) :
    ∀ line ∈ elementLines key elements, line.isRecord = true := by
  intro line hline
  obtain ⟨value, -, hvalue⟩ := List.mem_filterMap.mp hline
  obtain ⟨s, -, rfl⟩ := Option.map_eq_some_iff.mp hvalue
  rfl

theorem plainLines_isRecord (members : List (Bytes × Value)) :
    ∀ line ∈ plainLines members, line.isRecord = true := by
  intro line hline
  obtain ⟨⟨key, value⟩, -, hmember⟩ := List.mem_flatMap.mp hline
  cases value with
  | scalar s =>
    obtain rfl := List.mem_singleton.mp hmember
    rfl
  | array elements => exact elementLines_isRecord key elements line hmember
  | block members => exact absurd hmember List.not_mem_nil

theorem plainLines_eq (members : List (Bytes × Value)) :
    plainLines members = (plainRecords members).flatten := by
  induction members with
  | nil => rfl
  | cons member members ih =>
    have hcons : plainLines (member :: members) = memberLines member ++ plainLines members := rfl
    rw [hcons, ih]
    obtain ⟨key, value⟩ := member
    cases value with
    | scalar s => rw [plainRecords_cons_plain (isBlock_scalar key s), List.flatten_cons]
    | array elements => rw [plainRecords_cons_plain rfl, List.flatten_cons]
    | block inner =>
      rw [plainRecords_cons_block rfl]
      rfl

theorem nestedLines_eq_nil {members : List (Bytes × Value)} (h : members.any isBlock = false)
    (section_ : Bytes) : nestedLines section_ members = [] := by
  induction members with
  | nil => rfl
  | cons member members ih =>
    obtain ⟨key, value⟩ := member
    rw [List.any_cons, Bool.or_eq_false_iff] at h
    rw [nestedLines, ih h.2, List.append_nil]
    cases value with
    | scalar s => rfl
    | array elements => rfl
    | block inner => cases h.1

/-- The records of a block are those of its members. -/
theorem filter_blockLines (name : Bytes) (members : List (Bytes × Value)) :
    (blockLines name (.block members)).filter IniLine.isRecord =
      (plainRecords members).flatten ++ (nestedLines name members).filter IniLine.isRecord := by
  have hheader : (headerLines name).filter IniLine.isRecord = [] := by
    rw [headerLines]
    split <;> rfl
  rw [blockLines, List.filter_append, List.filter_append, hheader, List.nil_append,
    List.filter_eq_self.mpr (plainLines_isRecord members), plainLines_eq]
  congr 1
  cases hany : members.any isBlock with
  | true => rfl
  | false => rw [nestedLines_eq_nil hany]; rfl

/-- The records of the blocks among members, with the groups of the other members: each group
once, and its lines in their order. -/
theorem nestedLines_records : ∀ (members : List (Bytes × Value)) (section_ : Bytes),
    ∃ groups : List (List IniLine),
      (nestedLines section_ members).filter IniLine.isRecord = groups.flatten ∧
      (plainRecords members ++ groups).Perm (membersRecords members)
  | [], _ => ⟨[], rfl, .refl _⟩
  | (key, .scalar s) :: members, section_ => by
    obtain ⟨groups, hgroups, hperm⟩ := nestedLines_records members section_
    refine ⟨groups, hgroups, ?_⟩
    rw [plainRecords_cons_plain (isBlock_scalar key s)]
    exact hperm.cons _
  | (key, .array elements) :: members, section_ => by
    obtain ⟨groups, hgroups, hperm⟩ := nestedLines_records members section_
    refine ⟨groups, hgroups, ?_⟩
    rw [plainRecords_cons_plain rfl]
    exact hperm.cons _
  | (key, .block inner) :: members, section_ => by
    obtain ⟨groups, hgroups, hperm⟩ := nestedLines_records members section_
    obtain ⟨inside, hinside, hinner⟩ := nestedLines_records inner (newSection section_ key)
    refine ⟨(plainRecords inner ++ inside) ++ groups, ?_, ?_⟩
    · rw [nestedLines, List.filter_append, filter_blockLines, hinside, hgroups,
        List.flatten_append, List.flatten_append]
    · -- the groups of the block come before those of the members behind it
      rw [plainRecords_cons_block rfl, membersRecords, valueRecords]
      have hswap : (plainRecords members ++ ((plainRecords inner ++ inside) ++ groups)).Perm
          ((plainRecords inner ++ inside) ++ (plainRecords members ++ groups)) := by
        rw [← List.append_assoc, ← List.append_assoc (plainRecords inner ++ inside)]
        exact List.perm_append_comm.append_right _
      exact hswap.trans (hinner.append hperm)

/-- The records of a document: each group once, and its lines in their order. -/
theorem documentLines_records (document : Document) : ∃ groups : List (List IniLine),
    (documentLines document).filter IniLine.isRecord = groups.flatten ∧
    groups.Perm (membersRecords document) := by
  obtain ⟨groups, hgroups, hperm⟩ := nestedLines_records document []
  refine ⟨plainRecords document ++ groups, ?_, hperm⟩
  rw [documentLines, List.filter_append, List.filter_eq_self.mpr (plainLines_isRecord document),
    plainLines_eq, hgroups, List.flatten_append]

end Hrbl
