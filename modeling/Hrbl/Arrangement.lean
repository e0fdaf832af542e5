import Hrbl.Acceptance
import Hrbl.Lib.Comparator

/-!
# Members in another order

The same value with the members of its blocks in another order, at every level: as a file
has them, as an exporter writes them, or in whatever order the calls came.
-/

namespace Hrbl

open Lib

/-- The order of keys: bytes as numbers, and a key before what it is a part of. -/
def keyOrder (key : Bytes) : List Nat := key.map UInt8.toNat

theorem keyOrder_inj {a b : Bytes} (h : keyOrder a = keyOrder b) : a = b :=
  List.map_injective_iff.mpr (fun _ _ => UInt8.toNat_inj.mp) h

/-- Members, and the same members by their keys. -/
def SortedByKey (members out : List (Bytes × Value)) : Prop :=
  members.Perm out ∧ out.Pairwise fun a b => keyOrder a.1 ≤ keyOrder b.1

/-! ## Rearranged values -/

section

variable (order : List (Bytes × Value) → List (Bytes × Value) → Prop)

mutual

/-- The members of every block of the second value are in an order that stands in this
relation to the order of the first. -/
def Rearranged : Value → Value → Prop
  | .scalar s, out => out = .scalar s
  | .block members, out => ∃ mid members', out = .block members' ∧
      RearrangedMembers members mid ∧ order mid members'
  | .array elements, out => ∃ elements', out = .array elements' ∧
      RearrangedElements elements elements'

/-- The values of members are rearranged, each in its place. -/
def RearrangedMembers : List (Bytes × Value) → List (Bytes × Value) → Prop
  | [], out => out = []
  | (key, value) :: members, out => ∃ value' members', out = (key, value') :: members' ∧
      Rearranged value value' ∧ RearrangedMembers members members'

def RearrangedElements : List Value → List Value → Prop
  | [], out => out = []
  | value :: elements, out => ∃ value' elements', out = value' :: elements' ∧
      Rearranged value value' ∧ RearrangedElements elements elements'

end

/-- A document with its members and those of its blocks in another order. -/
def RearrangedDocument (document out : Document) : Prop :=
  ∃ mid, RearrangedMembers order document mid ∧ order mid out

end

section

variable {order order' : List (Bytes × Value) → List (Bytes × Value) → Prop}

theorem rearrangedMembers_iff {members members' : List (Bytes × Value)} :
    RearrangedMembers order members members' ↔
      List.Forall₂ (fun m m' => m.1 = m'.1 ∧ Rearranged order m.2 m'.2) members members' := by
  induction members generalizing members' with
  | nil => rw [RearrangedMembers, List.forall₂_nil_left_iff]
  | cons m members ih =>
    obtain ⟨key, value⟩ := m
    rw [RearrangedMembers]
    constructor
    · rintro ⟨value', rest, rfl, hvalue, hrest⟩
      exact .cons ⟨rfl, hvalue⟩ (ih.mp hrest)
    · intro h
      cases h with
      | @cons _ m' _ rest hm hrest =>
        obtain ⟨key', value'⟩ := m'
        obtain ⟨rfl, hvalue⟩ := hm
        exact ⟨value', rest, rfl, hvalue, ih.mpr hrest⟩

theorem RearrangedMembers.keys_eq {members members' : List (Bytes × Value)}
    (h : RearrangedMembers order members members') :
    members'.map Prod.fst = members.map Prod.fst := by
  rw [rearrangedMembers_iff] at h
  induction h with
  | nil => rfl
  | cons hm _ ih => rw [List.map_cons, List.map_cons, ih, hm.1]

theorem RearrangedMembers.length_eq {members members' : List (Bytes × Value)}
    (h : RearrangedMembers order members members') : members'.length = members.length := by
  rw [← List.length_map Prod.fst, h.keys_eq, List.length_map]

mutual

/-- An order that allows leaving everything where it is. -/
theorem Rearranged.refl (h : ∀ l, order l l) : ∀ value, Rearranged order value value
  | .scalar _ => rfl
  | .block members => ⟨members, members, rfl, RearrangedMembers.refl h members, h members⟩
  | .array elements => ⟨elements, rfl, RearrangedElements.refl h elements⟩

theorem RearrangedMembers.refl (h : ∀ l, order l l) :
    ∀ members, RearrangedMembers order members members
  | [] => rfl
  | (_, value) :: members =>
    ⟨value, members, rfl, Rearranged.refl h value, RearrangedMembers.refl h members⟩

theorem RearrangedElements.refl (h : ∀ l, order l l) :
    ∀ elements, RearrangedElements order elements elements
  | [] => rfl
  | value :: elements =>
    ⟨value, elements, rfl, Rearranged.refl h value, RearrangedElements.refl h elements⟩

end

mutual

/-- Where members can be put into an order, so can those of all blocks of a value. -/
theorem Rearranged.exists (horder : ∀ l, ∃ l', order l l') :
    ∀ value, ∃ value', Rearranged order value value'
  | .scalar s => ⟨.scalar s, rfl⟩
  | .block members => by
    obtain ⟨mid, hmid⟩ := RearrangedMembers.exists horder members
    obtain ⟨out, hout⟩ := horder mid
    exact ⟨.block out, mid, out, rfl, hmid, hout⟩
  | .array elements => by
    obtain ⟨elements', helements⟩ := RearrangedElements.exists horder elements
    exact ⟨.array elements', elements', rfl, helements⟩

theorem RearrangedMembers.exists (horder : ∀ l, ∃ l', order l l') :
    ∀ members, ∃ mid, RearrangedMembers order members mid
  | [] => ⟨[], rfl⟩
  | (key, value) :: members => by
    obtain ⟨value', hvalue⟩ := Rearranged.exists horder value
    obtain ⟨mid, hmid⟩ := RearrangedMembers.exists horder members
    exact ⟨(key, value') :: mid, value', mid, rfl, hvalue, hmid⟩

theorem RearrangedElements.exists (horder : ∀ l, ∃ l', order l l') :
    ∀ elements, ∃ out, RearrangedElements order elements out
  | [] => ⟨[], rfl⟩
  | value :: elements => by
    obtain ⟨value', hvalue⟩ := Rearranged.exists horder value
    obtain ⟨out, hout⟩ := RearrangedElements.exists horder elements
    exact ⟨value' :: out, value', out, rfl, hvalue, hout⟩

end

theorem RearrangedDocument.exists (horder : ∀ l, ∃ l', order l l') (document : Document) :
    ∃ out, RearrangedDocument order document out := by
  obtain ⟨mid, hmid⟩ := RearrangedMembers.exists horder document
  obtain ⟨out, hout⟩ := horder mid
  exact ⟨out, mid, hmid, hout⟩

mutual

/-- One order may allow what another does. -/
theorem Rearranged.mono (h : ∀ l l', order l l' → order' l l') :
    ∀ {value value' : Value}, Rearranged order value value' → Rearranged order' value value'
  | .scalar _, _, hvalue => hvalue
  | .block _, _, ⟨mid, members', heq, hmembers, horder⟩ =>
    ⟨mid, members', heq, RearrangedMembers.mono h hmembers, h _ _ horder⟩
  | .array _, _, ⟨elements', heq, helements⟩ =>
    ⟨elements', heq, RearrangedElements.mono h helements⟩

theorem RearrangedMembers.mono (h : ∀ l l', order l l' → order' l l') :
    ∀ {members members' : List (Bytes × Value)}, RearrangedMembers order members members' →
      RearrangedMembers order' members members'
  | [], _, hmembers => hmembers
  | (_, _) :: _, _, ⟨value', members', heq, hvalue, hmembers⟩ =>
    ⟨value', members', heq, Rearranged.mono h hvalue, RearrangedMembers.mono h hmembers⟩

theorem RearrangedElements.mono (h : ∀ l l', order l l' → order' l l') :
    ∀ {elements elements' : List Value}, RearrangedElements order elements elements' →
      RearrangedElements order' elements elements'
  | [], _, helements => helements
  | _ :: _, _, ⟨value', elements', heq, hvalue, helements⟩ =>
    ⟨value', elements', heq, Rearranged.mono h hvalue, RearrangedElements.mono h helements⟩

end

theorem RearrangedDocument.mono (h : ∀ l l', order l l' → order' l l') {document out : Document}
    (hout : RearrangedDocument order document out) : RearrangedDocument order' document out := by
  obtain ⟨mid, hmid, horder⟩ := hout
  exact ⟨mid, RearrangedMembers.mono h hmid, h _ _ horder⟩

mutual

/-- A rearrangement of a permutation, where the order does not see the permutation. -/
theorem Rearranged.of_perm (h : ∀ l l' l'' : List (Bytes × Value), l.Perm l' → order l' l'' →
    order l l'') : ∀ {u v w : Value}, Rearranged List.Perm u v → Rearranged order v w →
      Rearranged order u w
  | .scalar _, _, _, rfl, hvw => hvw
  | .block members, _, _, ⟨mid, members', rfl, hmid, hperm⟩,
      ⟨mid', members'', rfl, hmid', horder⟩ => by
    obtain ⟨front, hfront, hback⟩ :=
      List.perm_comp_forall₂ hperm (rearrangedMembers_iff.mp hmid')
    exact ⟨front, members'', rfl, RearrangedMembers.of_perm h hmid
      (rearrangedMembers_iff.mpr hfront), h _ _ _ hback horder⟩
  | .array _, _, _, ⟨_, rfl, huv⟩, ⟨elements'', rfl, hvw⟩ =>
    ⟨elements'', rfl, RearrangedElements.of_perm h huv hvw⟩

theorem RearrangedMembers.of_perm (h : ∀ l l' l'' : List (Bytes × Value), l.Perm l' →
    order l' l'' → order l l'') : ∀ {u v w : List (Bytes × Value)},
      RearrangedMembers List.Perm u v → RearrangedMembers order v w → RearrangedMembers order u w
  | [], _, _, rfl, hvw => hvw
  | (_, _) :: _, _, _, ⟨_, _, rfl, hvalue, hmembers⟩, ⟨_, _, rfl, hvalue', hmembers'⟩ =>
    ⟨_, _, rfl, Rearranged.of_perm h hvalue hvalue', RearrangedMembers.of_perm h hmembers hmembers'⟩

theorem RearrangedElements.of_perm (h : ∀ l l' l'' : List (Bytes × Value), l.Perm l' →
    order l' l'' → order l l'') : ∀ {u v w : List Value},
      RearrangedElements List.Perm u v → RearrangedElements order v w →
        RearrangedElements order u w
  | [], _, _, rfl, hvw => hvw
  | _ :: _, _, _, ⟨_, _, rfl, hvalue, helements⟩, ⟨_, _, rfl, hvalue', helements'⟩ =>
    ⟨_, _, rfl, Rearranged.of_perm h hvalue hvalue',
      RearrangedElements.of_perm h helements helements'⟩

end

theorem RearrangedDocument.of_perm (h : ∀ l l' l'' : List (Bytes × Value), l.Perm l' →
    order l' l'' → order l l'') {u v w : Document} (huv : RearrangedDocument List.Perm u v)
    (hvw : RearrangedDocument order v w) : RearrangedDocument order u w := by
  obtain ⟨mid, hmid, hperm⟩ := huv
  obtain ⟨mid', hmid', horder⟩ := hvw
  obtain ⟨front, hfront, hback⟩ := List.perm_comp_forall₂ hperm (rearrangedMembers_iff.mp hmid')
  exact ⟨front, RearrangedMembers.of_perm h hmid (rearrangedMembers_iff.mpr hfront),
    h _ _ _ hback horder⟩

theorem RearrangedDocument.trans {u v w : Document} (huv : RearrangedDocument List.Perm u v)
    (hvw : RearrangedDocument List.Perm v w) : RearrangedDocument List.Perm u w := by
  refine RearrangedDocument.of_perm ?_ huv hvw
  exact fun _ _ _ hp hq => hp.trans hq

end

/-! ## File order -/

mutual

/-- A file has the members in another order. -/
theorem rearranged_inFileOrder (hash64 : Bytes → UInt64) :
    ∀ value : Value, Rearranged List.Perm value (value.inFileOrder hash64)
  | .scalar _ => by rw [Value.inFileOrder, Rearranged]
  | .block members => by
    rw [Value.inFileOrder, Rearranged]
    exact ⟨_, _, rfl, rearrangedMembers_inFileOrder hash64 members, (stableSort_perm _ _).symm⟩
  | .array elements => by
    rw [Value.inFileOrder, Rearranged]
    exact ⟨_, rfl, rearrangedElements_inFileOrder hash64 elements⟩

theorem rearrangedMembers_inFileOrder (hash64 : Bytes → UInt64) :
    ∀ members : List (Bytes × Value),
      RearrangedMembers List.Perm members (membersInFileOrder hash64 members)
  | [] => rfl
  | (_, value) :: members => ⟨_, _, rfl, rearranged_inFileOrder hash64 value,
      rearrangedMembers_inFileOrder hash64 members⟩

theorem rearrangedElements_inFileOrder (hash64 : Bytes → UInt64) : ∀ elements : List Value,
    RearrangedElements List.Perm elements (elementsInFileOrder hash64 elements)
  | [] => rfl
  | value :: elements => ⟨_, _, rfl, rearranged_inFileOrder hash64 value,
      rearrangedElements_inFileOrder hash64 elements⟩

end

theorem rearrangedDocument_inFileOrder (hash64 : Bytes → UInt64) (document : Document) :
    RearrangedDocument List.Perm document (document.inFileOrder hash64) :=
  ⟨_, rearrangedMembers_inFileOrder hash64 document, (stableSort_perm _ _).symm⟩

/-! ## Distinct keys -/

mutual

/-- No block has a key twice. -/
def Value.KeysDistinct : Value → Prop
  | .scalar _ => True
  | .block members => (members.map Prod.fst).Nodup ∧ membersKeysDistinct members
  | .array elements => elementsKeysDistinct elements

/-- No block below these members has a key twice. -/
def membersKeysDistinct : List (Bytes × Value) → Prop
  | [] => True
  | (_, value) :: members => value.KeysDistinct ∧ membersKeysDistinct members

def elementsKeysDistinct : List Value → Prop
  | [] => True
  | value :: elements => value.KeysDistinct ∧ elementsKeysDistinct elements

end

/-- Neither the root nor a block has a key twice. -/
def Document.KeysDistinct (document : Document) : Prop :=
  (document.map Prod.fst).Nodup ∧ membersKeysDistinct document

/-- Members with distinct keys have one order by their keys. -/
theorem SortedByKey.unique {members out out' : List (Bytes × Value)}
    (hnodup : (members.map Prod.fst).Nodup) (h : SortedByKey members out)
    (h' : SortedByKey members out') : out = out' := by
  have hkeys : (out.map Prod.fst).Nodup := ((h.1.map Prod.fst).nodup_iff).mp hnodup
  have hmap : out.map (fun m => keyOrder m.1) = (out.map Prod.fst).map keyOrder := by
    rw [List.map_map]
    rfl
  have hdistinct : (out.map fun m => keyOrder m.1).Nodup := by
    rw [hmap]
    exact hkeys.map fun _ _ heq => keyOrder_inj heq
  exact eq_of_sorted_of_perm hdistinct (h.1.symm.trans h'.1) h.2 h'.2

mutual

theorem Rearranged.unique : ∀ {value out out' : Value}, value.KeysDistinct →
    Rearranged SortedByKey value out → Rearranged SortedByKey value out' → out = out'
  | .scalar _, _, _, _, rfl, rfl => rfl
  | .block _, _, _, ⟨hnodup, hdistinct⟩, ⟨mid, _, rfl, hmid, hsorted⟩,
      ⟨mid', _, rfl, hmid', hsorted'⟩ => by
    obtain rfl := RearrangedMembers.unique hdistinct hmid hmid'
    exact congrArg Value.block (hsorted.unique (hmid.keys_eq ▸ hnodup) hsorted')
  | .array _, _, _, hdistinct, ⟨_, rfl, h⟩, ⟨_, rfl, h'⟩ =>
    congrArg Value.array (RearrangedElements.unique hdistinct h h')

theorem RearrangedMembers.unique : ∀ {members out out' : List (Bytes × Value)},
    membersKeysDistinct members → RearrangedMembers SortedByKey members out →
      RearrangedMembers SortedByKey members out' → out = out'
  | [], _, _, _, rfl, rfl => rfl
  | (_, _) :: _, _, _, ⟨hvalue, hrest⟩, ⟨_, _, rfl, h, hmembers⟩, ⟨_, _, rfl, h', hmembers'⟩ => by
    rw [Rearranged.unique hvalue h h', RearrangedMembers.unique hrest hmembers hmembers']

theorem RearrangedElements.unique : ∀ {elements out out' : List Value},
    elementsKeysDistinct elements → RearrangedElements SortedByKey elements out →
      RearrangedElements SortedByKey elements out' → out = out'
  | [], _, _, _, rfl, rfl => rfl
  | _ :: _, _, _, ⟨hvalue, hrest⟩, ⟨_, _, rfl, h, helements⟩, ⟨_, _, rfl, h', helements'⟩ => by
    rw [Rearranged.unique hvalue h h', RearrangedElements.unique hrest helements helements']

end

/-- With distinct keys, a document has one order by its keys at every level. -/
theorem RearrangedDocument.unique {document out out' : Document} (hdistinct : document.KeysDistinct)
    (h : RearrangedDocument SortedByKey document out)
    (h' : RearrangedDocument SortedByKey document out') : out = out' := by
  obtain ⟨mid, hmid, hsorted⟩ := h
  obtain ⟨mid', hmid', hsorted'⟩ := h'
  obtain rfl := RearrangedMembers.unique hdistinct.2 hmid hmid'
  exact hsorted.unique (hmid.keys_eq ▸ hdistinct.1) hsorted'

/-! ## Texts -/

theorem mem_membersTexts {u : Bytes} {members : List (Bytes × Value)} :
    u ∈ membersTexts members ↔ ∃ m ∈ members, u = m.1 ∨ u ∈ valueTexts m.2 := by
  induction members with
  | nil => simp [membersTexts]
  | cons m members ih =>
    obtain ⟨key, value⟩ := m
    rw [membersTexts, List.cons_append, List.mem_cons, List.mem_append, ih]
    simp only [List.mem_cons, exists_eq_or_imp, or_assoc]

theorem mem_elementsTexts {u : Bytes} {elements : List Value} :
    u ∈ elementsTexts elements ↔ ∃ e ∈ elements, u ∈ valueTexts e := by
  induction elements with
  | nil => simp [elementsTexts]
  | cons e elements ih =>
    rw [elementsTexts, List.mem_append, ih]
    simp only [List.mem_cons, exists_eq_or_imp]

mutual

/-- Another order has the same keys and strings. -/
theorem Rearranged.mem_texts {u : Bytes} : ∀ {value out : Value},
    Rearranged List.Perm value out → (u ∈ valueTexts out ↔ u ∈ valueTexts value)
  | .scalar _, _, rfl => Iff.rfl
  | .block _, _, ⟨mid, out, rfl, hmid, hperm⟩ => by
    have hout : u ∈ membersTexts out ↔ u ∈ membersTexts mid := by
      simp only [mem_membersTexts, hperm.mem_iff]
    exact hout.trans (RearrangedMembers.mem_texts hmid)
  | .array _, _, ⟨_, rfl, helements⟩ => RearrangedElements.mem_texts helements

theorem RearrangedMembers.mem_texts {u : Bytes} : ∀ {members out : List (Bytes × Value)},
    RearrangedMembers List.Perm members out → (u ∈ membersTexts out ↔ u ∈ membersTexts members)
  | [], _, rfl => Iff.rfl
  | (_, _) :: _, _, ⟨_, _, rfl, hvalue, hmembers⟩ => by
    rw [membersTexts, membersTexts, List.cons_append, List.cons_append, List.mem_cons,
      List.mem_cons, List.mem_append, List.mem_append, hvalue.mem_texts, hmembers.mem_texts]

theorem RearrangedElements.mem_texts {u : Bytes} : ∀ {elements out : List Value},
    RearrangedElements List.Perm elements out →
      (u ∈ elementsTexts out ↔ u ∈ elementsTexts elements)
  | [], _, rfl => Iff.rfl
  | _ :: _, _, ⟨_, _, rfl, hvalue, helements⟩ => by
    rw [elementsTexts, elementsTexts, List.mem_append, List.mem_append, hvalue.mem_texts,
      helements.mem_texts]

end

theorem RearrangedDocument.mem_texts {u : Bytes} {document out : Document}
    (h : RearrangedDocument List.Perm document out) :
    u ∈ membersTexts out ↔ u ∈ membersTexts document := by
  obtain ⟨mid, hmid, hperm⟩ := h
  have hout : u ∈ membersTexts out ↔ u ∈ membersTexts mid := by
    simp only [mem_membersTexts, hperm.mem_iff]
  exact hout.trans hmid.mem_texts

/-! ## Scalars -/

mutual

/-- The scalars below a value. -/
def valueScalars : Value → List Scalar
  | .scalar s => [s]
  | .block members => membersScalars members
  | .array elements => elementsScalars elements

def membersScalars : List (Bytes × Value) → List Scalar
  | [] => []
  | (_, value) :: members => valueScalars value ++ membersScalars members

def elementsScalars : List Value → List Scalar
  | [] => []
  | value :: elements => valueScalars value ++ elementsScalars elements

end

theorem mem_membersScalars {s : Scalar} {members : List (Bytes × Value)} :
    s ∈ membersScalars members ↔ ∃ m ∈ members, s ∈ valueScalars m.2 := by
  induction members with
  | nil => simp [membersScalars]
  | cons m members ih =>
    obtain ⟨key, value⟩ := m
    rw [membersScalars, List.mem_append, ih]
    simp only [List.mem_cons, exists_eq_or_imp]

mutual

/-- Another order has the same scalars. -/
theorem Rearranged.mem_scalars {s : Scalar} : ∀ {value out : Value},
    Rearranged List.Perm value out → (s ∈ valueScalars out ↔ s ∈ valueScalars value)
  | .scalar _, _, rfl => Iff.rfl
  | .block members, _, ⟨mid, out, rfl, hmid, hperm⟩ => by
    have hout : s ∈ membersScalars out ↔ s ∈ membersScalars mid := by
      simp only [mem_membersScalars, hperm.mem_iff]
    exact hout.trans (RearrangedMembers.mem_scalars hmid)
  | .array _, _, ⟨_, rfl, helements⟩ => RearrangedElements.mem_scalars helements

theorem RearrangedMembers.mem_scalars {s : Scalar} : ∀ {members out : List (Bytes × Value)},
    RearrangedMembers List.Perm members out →
      (s ∈ membersScalars out ↔ s ∈ membersScalars members)
  | [], _, rfl => Iff.rfl
  | (_, _) :: _, _, ⟨_, _, rfl, hvalue, hmembers⟩ => by
    rw [membersScalars, membersScalars, List.mem_append, List.mem_append, hvalue.mem_scalars,
      hmembers.mem_scalars]

theorem RearrangedElements.mem_scalars {s : Scalar} : ∀ {elements out : List Value},
    RearrangedElements List.Perm elements out →
      (s ∈ elementsScalars out ↔ s ∈ elementsScalars elements)
  | [], _, rfl => Iff.rfl
  | _ :: _, _, ⟨_, _, rfl, hvalue, helements⟩ => by
    rw [elementsScalars, elementsScalars, List.mem_append, List.mem_append, hvalue.mem_scalars,
      helements.mem_scalars]

end

theorem RearrangedDocument.mem_scalars {s : Scalar} {document out : Document}
    (h : RearrangedDocument List.Perm document out) :
    s ∈ membersScalars out ↔ s ∈ membersScalars document := by
  obtain ⟨mid, hmid, hperm⟩ := h
  have hout : s ∈ membersScalars out ↔ s ∈ membersScalars mid := by
    simp only [mem_membersScalars, hperm.mem_iff]
  exact hout.trans hmid.mem_scalars

end Hrbl
