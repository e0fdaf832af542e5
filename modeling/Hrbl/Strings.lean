import Hrbl.Document
import Hrbl.Lib.Align
import Hrbl.Lib.Bytes

/-!
# The strings of a document

A file holds every string once, as a record of its length and its bytes. The order is the
order of the first uses, and the strings after a list of uses, their offsets, and whether
all of them start below 2^32, are properties of that list.
-/

namespace Hrbl

open Lib

/-! ## Records -/

/-- The record of a string: its length, its bytes, and zeros up to a multiple of four. -/
def record (s : Bytes) : Bytes :=
  leBytes 4 s.length ++ s ++ List.replicate (alignUpNat s.length 4 - s.length) 0

/-- The buffer of a pool that holds these strings. -/
def poolBytes (strings : List Bytes) : Bytes := strings.flatMap record

/-- Where the record of a string starts. -/
def poolOffsetOf : List Bytes → Bytes → Nat
  | [], _ => 0
  | t :: ts, s => if t = s then 0 else (record t).length + poolOffsetOf ts s

/-- The strings of a pool after one more use. -/
def internString (strings : List Bytes) (s : Bytes) : List Bytes :=
  if s ∈ strings then strings else strings ++ [s]

theorem length_record (s : Bytes) : (record s).length = 4 + alignUpNat s.length 4 := by
  have hle := le_alignUpNat (show 0 < 4 by omega) s.length
  simp only [record, List.length_append, length_leBytes, List.length_replicate]
  omega

theorem dvd_length_record (s : Bytes) : 4 ∣ (record s).length := by
  rw [length_record]
  exact Nat.dvd_add (Nat.dvd_refl 4) (dvd_alignUpNat 4 _)

theorem poolBytes_append (strings more : List Bytes) :
    poolBytes (strings ++ more) = poolBytes strings ++ poolBytes more := List.flatMap_append

theorem dvd_length_poolBytes (strings : List Bytes) : 4 ∣ (poolBytes strings).length := by
  induction strings with
  | nil => exact Nat.dvd_zero 4
  | cons s strings ih =>
    rw [poolBytes, List.flatMap_cons, List.length_append]
    exact Nat.dvd_add (dvd_length_record s) ih

/-- Every record has a length. -/
theorem four_mul_length_le_poolBytes (strings : List Bytes) :
    4 * strings.length ≤ (poolBytes strings).length := by
  induction strings with
  | nil => exact Nat.le_refl 0
  | cons s strings ih =>
    rw [poolBytes, List.flatMap_cons, List.length_append, length_record, List.length_cons]
    rw [poolBytes] at ih
    omega

theorem poolOffsetOf_append_of_mem {strings : List Bytes} {s : Bytes} (h : s ∈ strings)
    (more : List Bytes) : poolOffsetOf (strings ++ more) s = poolOffsetOf strings s := by
  induction strings with
  | nil => exact absurd h List.not_mem_nil
  | cons t ts ih =>
    rw [List.cons_append, poolOffsetOf, poolOffsetOf]
    by_cases hts : t = s
    · rw [if_pos hts, if_pos hts]
    · rw [if_neg hts, if_neg hts, ih ((List.mem_cons.mp h).resolve_left (Ne.symm hts))]

theorem poolOffsetOf_append_of_notMem {strings : List Bytes} {s : Bytes} (h : s ∉ strings)
    (more : List Bytes) :
    poolOffsetOf (strings ++ s :: more) s = (poolBytes strings).length := by
  induction strings with
  | nil => exact if_pos rfl
  | cons t ts ih =>
    have hts : t ≠ s := fun heq => h (heq ▸ List.mem_cons_self)
    rw [List.cons_append, poolOffsetOf, if_neg hts,
      ih fun hin => h (List.mem_cons_of_mem _ hin), poolBytes, poolBytes, List.flatMap_cons,
      List.length_append]

theorem dvd_poolOffsetOf (strings : List Bytes) (s : Bytes) : 4 ∣ poolOffsetOf strings s := by
  induction strings with
  | nil => exact Nat.dvd_zero 4
  | cons t ts ih =>
    rw [poolOffsetOf]
    split
    · exact Nat.dvd_zero 4
    · exact Nat.dvd_add (dvd_length_record t) ih

/-- The record of a string is at its offset. -/
theorem hasAt_record {strings : List Bytes} {s : Bytes} (h : s ∈ strings) :
    HasAt (poolBytes strings) (poolOffsetOf strings s) (record s) := by
  induction strings with
  | nil => exact absurd h List.not_mem_nil
  | cons t ts ih =>
    rw [poolOffsetOf, poolBytes, List.flatMap_cons]
    by_cases hts : t = s
    · rw [if_pos hts, hts]
      exact HasAt.intro [] (record s) _
    · rw [if_neg hts, HasAt, ← List.drop_drop, List.drop_left]
      exact ih ((List.mem_cons.mp h).resolve_left (Ne.symm hts))

theorem poolOffsetOf_lt {strings : List Bytes} {s : Bytes} (h : s ∈ strings) :
    poolOffsetOf strings s + (record s).length ≤ (poolBytes strings).length :=
  (hasAt_record h).le_length (by simp [record, leBytes])

/-- A place in the list of strings is below a quarter of the offset there. -/
theorem four_mul_le_poolOffsetOf {strings : List Bytes} {s : Bytes} {i : Nat}
    (hnodup : strings.Nodup) (h : strings[i]? = some s) : 4 * i ≤ poolOffsetOf strings s := by
  induction strings generalizing i with
  | nil => cases h
  | cons t ts ih =>
    obtain ⟨ht, hts⟩ := List.nodup_cons.mp hnodup
    cases i with
    | zero => exact Nat.zero_le _
    | succ i =>
      rw [List.getElem?_cons_succ] at h
      have hne : t ≠ s := fun heq => ht (heq ▸ List.mem_of_getElem? h)
      have hle := ih hts h
      have hlen := length_record t
      rw [poolOffsetOf, if_neg hne]
      omega

/-! ## Uses -/

/-- The strings of a pool after a list of uses. -/
def internAll (strings uses : List Bytes) : List Bytes := uses.foldl internString strings

/-- Every new string of the uses starts below 2^32. -/
def UsesFit : List Bytes → List Bytes → Prop
  | _, [] => True
  | strings, s :: uses =>
    (s ∉ strings → (poolBytes strings).length ≤ lengthMax) ∧
      UsesFit (internString strings s) uses

theorem internAll_append (strings uses more : List Bytes) :
    internAll strings (uses ++ more) = internAll (internAll strings uses) more :=
  List.foldl_append

theorem usesFit_append {strings uses more : List Bytes} :
    UsesFit strings (uses ++ more) ↔
      UsesFit strings uses ∧ UsesFit (internAll strings uses) more := by
  induction uses generalizing strings with
  | nil => exact ⟨fun h => ⟨trivial, h⟩, fun h => h.2⟩
  | cons s uses ih =>
    rw [List.cons_append, UsesFit, UsesFit, ih, and_assoc]
    rfl

theorem prefix_internString (strings : List Bytes) (s : Bytes) :
    strings <+: internString strings s := by
  unfold internString
  split
  · exact List.prefix_rfl
  · exact List.prefix_append _ _

theorem prefix_internAll (strings uses : List Bytes) : strings <+: internAll strings uses := by
  induction uses generalizing strings with
  | nil => exact List.prefix_rfl
  | cons s uses ih => exact (prefix_internString strings s).trans (ih _)

theorem mem_internString (strings : List Bytes) (s : Bytes) : s ∈ internString strings s := by
  unfold internString
  split
  · assumption
  · exact List.mem_append_right _ (List.mem_singleton.mpr rfl)

/-- A string keeps its offset. -/
theorem poolOffsetOf_prefix {strings S : List Bytes} {s : Bytes} (h : strings <+: S)
    (hs : s ∈ strings) : poolOffsetOf S s = poolOffsetOf strings s := by
  obtain ⟨more, rfl⟩ := h
  exact poolOffsetOf_append_of_mem hs more

theorem mem_internAll {strings uses : List Bytes} {s : Bytes} :
    s ∈ internAll strings uses ↔ s ∈ strings ∨ s ∈ uses := by
  induction uses generalizing strings with
  | nil => simp [internAll]
  | cons t uses ih =>
    have hstep : s ∈ internString strings t ↔ s ∈ strings ∨ s = t := by
      unfold internString
      split
      · rename_i ht
        exact ⟨.inl, fun h => h.elim id fun heq => heq ▸ ht⟩
      · rw [List.mem_append, List.mem_singleton]
    change s ∈ internAll (internString strings t) uses ↔ _
    rw [ih, hstep, List.mem_cons, or_assoc]

/-- The uses of a key while the strings are collected: an empty one waits. -/
def keyUses (key : Bytes) : List Bytes := if key = [] then [] else [key]

def Scalar.uses : Scalar → List Bytes
  | .string value => [value]
  | _ => []

mutual

/-- The strings below a value, in the order of the nodes. -/
def valueUses : Value → List Bytes
  | .scalar s => s.uses
  | .block members => membersUses members
  | .array elements => elementsUses elements

def membersUses : List (Bytes × Value) → List Bytes
  | [] => []
  | (key, value) :: members => keyUses key ++ valueUses value ++ membersUses members

def elementsUses : List Value → List Bytes
  | [] => []
  | value :: elements => valueUses value ++ elementsUses elements

end

theorem membersUses_elements (elements : List Value) :
    membersUses (elements.map fun e => ([], e)) = elementsUses elements := by
  induction elements with
  | nil => rfl
  | cons e elements ih => rw [List.map_cons, membersUses, elementsUses, ih]; rfl

/-! ## Empty keys -/

/-- The strings after uses that may be of the empty string, and otherwise are of strings
that are there already. -/
def withEmpty (strings refs : List Bytes) : List Bytes :=
  if [] ∈ refs then internString strings [] else strings

theorem internString_of_mem {strings : List Bytes} {s : Bytes} (h : s ∈ strings) :
    internString strings s = strings := if_pos h

theorem withEmpty_append (strings refs more : List Bytes) :
    withEmpty strings (refs ++ more) = withEmpty (withEmpty strings refs) more := by
  by_cases hrefs : [] ∈ refs
  · have hin : [] ∈ refs ++ more := List.mem_append_left _ hrefs
    rw [withEmpty, if_pos hin, withEmpty, withEmpty, if_pos hrefs,
      internString_of_mem (mem_internString strings []), ite_self]
  · rw [withEmpty, withEmpty, withEmpty, if_neg hrefs]
    simp only [List.mem_append, hrefs, false_or]

/-- Only whether the empty string is used matters. -/
theorem withEmpty_congr {strings refs refs' : List Bytes} (h : [] ∈ refs ↔ [] ∈ refs') :
    withEmpty strings refs = withEmpty strings refs' := by
  simp only [withEmpty, h]

theorem withEmpty_cases (strings refs : List Bytes) :
    withEmpty strings refs = strings ∨ withEmpty strings refs = internString strings [] := by
  unfold withEmpty
  split
  · exact .inr rfl
  · exact .inl rfl

end Hrbl
