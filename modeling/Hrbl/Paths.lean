import Hrbl.Lookup
import Hrbl.Arrangement
import Hrbl.Lib.Json

/-!
# Paths

`bc_hrbl_reader_find` against the document: a path is a list of steps in text, and finding it
in a file that holds the document is to follow the steps in the tree. Hashes may collide, for
the search compares keys; what it needs is that no block has a key twice.
-/

namespace Hrbl

open Lib Lib.Outcome

/-! ## Steps -/

/-- One step down: to the member of a block with this key, or to the element of an array at
this index. -/
inductive Step where
  | key (key : Bytes)
  | index (index : UInt32)
deriving Repr, DecidableEq

/-- One step in the tree. -/
def Value.child : Value → Step → Option Value
  | .block members, .key key => members.lookup key
  | .array elements, .index index => elements[index.toNat]?
  | _, _ => none

/-- Some steps in the tree. -/
def Value.follow (value : Value) : List Step → Option Value
  | [] => some value
  | step :: steps => (value.child step).bind fun child => child.follow steps

/-- The steps from the root on, of which the first one is a key. -/
def Document.follow (document : Document) : List Step → Option Value
  | .key key :: steps => (document.lookup key).bind fun value => value.follow steps
  | _ => none

/-- The text of a key: bare if nothing in it is read as something else, or between quotes that
it does not contain. -/
def RendersKey (key text : Bytes) : Prop :=
  key ≠ [] ∧
    (text = key ∧ 0x2E ∉ key ∧ 0x5B ∉ key ∧ key.head? ≠ some 0x27 ∧ key.head? ≠ some 0x22 ∨
      ∃ quote, (quote = 0x27 ∨ quote = 0x22) ∧ quote ∉ key ∧ text = quote :: key ++ [quote])

/-- The text of the steps behind the first one. -/
def RendersSteps : List Step → Bytes → Prop
  | [], text => text = []
  | .key key :: steps, text => ∃ segment rest, RendersKey key segment ∧ RendersSteps steps rest ∧
      text = 0x2E :: segment ++ rest
  | .index index :: steps, text => ∃ rest, RendersSteps steps rest ∧
      text = 0x5B :: Json.decimalNat index.toNat ++ 0x5D :: rest

/-- The text of steps that start with a key. -/
def RendersPath : List Step → Bytes → Prop
  | .key key :: steps, text => ∃ segment rest, RendersKey key segment ∧ RendersSteps steps rest ∧
      text = segment ++ rest
  | _, _ => False

theorem RendersKey.length_le {key text : Bytes} (h : RendersKey key text) :
    key.length ≤ text.length := by
  obtain ⟨-, ⟨rfl, -⟩ | ⟨quote, -, -, rfl⟩⟩ := h
  · exact Nat.le_refl _
  · simp only [List.cons_append, List.length_cons, List.length_append]
    omega

/-! ## Cutting segments -/

/-- What comes behind a segment starts with a dot or a bracket. -/
theorem RendersSteps.rest {steps : List Step} {text : Bytes} (h : RendersSteps steps text) :
    text = [] ∨ ∃ rest, text = 0x2E :: rest ∨ text = 0x5B :: rest := by
  cases steps with
  | nil => exact .inl h
  | cons step steps =>
    cases step with
    | key key =>
      obtain ⟨segment, rest, -, -, rfl⟩ := h
      exact .inr ⟨_, .inl rfl⟩
    | index index =>
      obtain ⟨rest, -, rfl⟩ := h
      exact .inr ⟨_, .inr rfl⟩

/-- A key is cut off with what is behind it left. -/
theorem cutSegment_key {key segment rest : Bytes} (h : RendersKey key segment)
    (hrest : rest = [] ∨ ∃ more, rest = 0x2E :: more ∨ rest = 0x5B :: more) :
    ∃ c tail, segment ++ rest = c :: tail ∧ c ≠ 0x2E ∧
      cutSegment (c :: tail) = some (.key key, rest) := by
  obtain ⟨hne, ⟨rfl, hdot, hbracket, hsingle, hdouble⟩ | ⟨quote, hquote, hfree, rfl⟩⟩ := h
  · cases segment with
    | nil => exact absurd rfl hne
    | cons c tail =>
      have hc_dot : c ≠ 0x2E := fun heq => hdot (heq ▸ List.mem_cons_self)
      have hc_bracket : c ≠ 0x5B := fun heq => hbracket (heq ▸ List.mem_cons_self)
      have hc_quote : ¬(c = 0x27 ∨ c = 0x22) := by
        rintro (rfl | rfl)
        · exact hsingle rfl
        · exact hdouble rfl
      refine ⟨c, tail ++ rest, rfl, hc_dot, ?_⟩
      have hplain : ∀ x ∈ c :: tail, decide (x ≠ 0x2E ∧ x ≠ 0x5B) = true := by
        intro x hx
        exact decide_eq_true ⟨fun heq => hdot (heq ▸ hx), fun heq => hbracket (heq ▸ hx)⟩
      have hstop : rest.takeWhile (fun x => decide (x ≠ 0x2E ∧ x ≠ 0x5B)) = [] ∧
          rest.dropWhile (fun x => decide (x ≠ 0x2E ∧ x ≠ 0x5B)) = rest := by
        rcases hrest with rfl | ⟨more, rfl | rfl⟩
        · exact ⟨rfl, rfl⟩
        · exact ⟨rfl, rfl⟩
        · exact ⟨rfl, rfl⟩
      rw [cutSegment, if_neg hc_bracket, if_neg hc_quote, ← List.cons_append,
        List.takeWhile_append_of_pos hplain, List.dropWhile_append_of_pos hplain, hstop.1,
        hstop.2, List.append_nil]
  · refine ⟨quote, key ++ [quote] ++ rest, rfl, ?_, ?_⟩
    · rcases hquote with rfl | rfl <;> decide
    have hquote_bracket : quote ≠ 0x5B := by rcases hquote with rfl | rfl <;> decide
    have hplain : ∀ x ∈ key, decide (x ≠ quote) = true := by
      intro x hx
      exact decide_eq_true fun heq => hfree (heq ▸ hx)
    rw [cutSegment, if_neg hquote_bracket, if_pos hquote, List.append_assoc,
      List.takeWhile_append_of_pos hplain, List.dropWhile_append_of_pos hplain,
      List.singleton_append, List.takeWhile_cons_of_neg (by simp),
      List.dropWhile_cons_of_neg (by simp), List.append_nil]

theorem foldl_digits {digits : Bytes} (hdigits : ∀ b ∈ digits, Json.IsDigit b) (n : Nat) :
    digits.foldl (fun index digit => index * 10 + (digit - 0x30).toUInt64) (UInt64.ofNat n) =
      UInt64.ofNat (digits.foldl (fun n b => n * 10 + (b.toNat - 0x30)) n) := by
  induction digits generalizing n with
  | nil => rfl
  | cons b digits ih =>
    obtain ⟨⟨hge, -⟩, hrest⟩ := List.forall_mem_cons.mp hdigits
    have hbyte : (b - 0x30).toUInt64 = UInt64.ofNat (b.toNat - 0x30) := by
      apply UInt64.toNat_inj.mp
      have hlt := b.toNat_lt
      have hle : (0x30 : UInt8) ≤ b := UInt8.le_iff_toNat_le.mpr hge
      rw [UInt8.toNat_toUInt64, UInt8.toNat_sub_of_le _ _ hle,
        UInt64.toNat_ofNat', Nat.mod_eq_of_lt (by omega)]
      rfl
    rw [List.foldl_cons, List.foldl_cons, ← ih hrest, hbyte, UInt64.ofNat_add, UInt64.ofNat_mul]
    rfl

/-- An index between brackets is read as itself. -/
theorem parseIndex_decimalNat (index : UInt32) :
    parseIndex (Json.decimalNat index.toNat) = some index := by
  have hlt := index.toNat_lt
  have hdigits := (Json.isInt_decimalNat index.toNat).isDigit
  have hlength : (Json.decimalNat index.toNat).length ≠ 0 ∧
      (Json.decimalNat index.toNat).length ≤ 10 := by
    rw [Json.decimalNat]
    split
    · exact ⟨by decide, by decide⟩
    · rename_i hne
      rw [List.length_map, List.length_reverse, Nat.digits_length_le_iff (by omega)]
      refine ⟨fun hnil => hne ?_, by omega⟩
      rwa [List.length_eq_zero_iff, Nat.digits_eq_nil_iff_eq_zero] at hnil
  have hvalue : (Json.decimalNat index.toNat).foldl
      (fun index digit => index * 10 + (digit - 0x30).toUInt64) (0 : UInt64) =
        UInt64.ofNat index.toNat := by
    have hsame := Json.digitsValue_decimalNat index.toNat
    rw [Json.digitsValue] at hsame
    have hfold := foldl_digits hdigits 0
    rwa [hsame] at hfold
  have hall : ¬∃ digit ∈ Json.decimalNat index.toNat, digit < 0x30 ∨ digit > 0x39 := by
    rintro ⟨digit, hmem, hout⟩
    obtain ⟨hge, hle⟩ := hdigits digit hmem
    rcases hout with hout | hout
    · exact absurd (UInt8.lt_iff_toNat_lt.mp hout) (Nat.not_lt.mpr hge)
    · exact absurd (UInt8.lt_iff_toNat_lt.mp hout) (Nat.not_lt.mpr hle)
  have hsmall : ¬UInt64.ofNat index.toNat > 0xFFFFFFFF := by
    rw [gt_iff_lt, UInt64.lt_iff_toNat_lt, UInt64.toNat_ofNat', Nat.mod_eq_of_lt (by omega)]
    change ¬0xFFFFFFFF < _
    omega
  rw [parseIndex, if_neg (by omega), if_neg hall, hvalue]
  simp only [if_neg hsmall, Option.some.injEq]
  apply UInt32.toNat_inj.mp
  rw [UInt64.toNat_toUInt32, UInt64.toNat_ofNat', Nat.mod_eq_of_lt (show _ < 2 ^ 64 by omega),
    Nat.mod_eq_of_lt hlt]

/-- An index is cut off with what is behind its bracket left. -/
theorem cutSegment_index (index : UInt32) (rest : Bytes) :
    cutSegment (0x5B :: Json.decimalNat index.toNat ++ 0x5D :: rest) =
      some (.index index, rest) := by
  have hplain : ∀ x ∈ Json.decimalNat index.toNat, decide (x ≠ 0x5D) = true := by
    intro x hx
    obtain ⟨-, hle⟩ := (Json.isInt_decimalNat index.toNat).isDigit x hx
    refine decide_eq_true ?_
    rintro rfl
    exact absurd hle (by decide)
  rw [List.cons_append, cutSegment, if_pos rfl, List.takeWhile_append_of_pos hplain,
    List.dropWhile_append_of_pos hplain, List.takeWhile_cons_of_neg (by simp),
    List.dropWhile_cons_of_neg (by simp), List.append_nil]
  simp only [parseIndex_decimalNat]

/-! ## Turns of the path loop -/

section

variable {hash64 : Bytes → UInt64} {r : Reader} {offset : UInt64} {resolved : Bool}

theorem resolveLoop_dot (tail : Bytes) :
    resolveLoop hash64 r offset resolved (0x2E :: tail) =
      resolveLoop hash64 r offset resolved tail := by
  rw [resolveLoop, dif_pos rfl]

/-- A key is looked up, at the root first. -/
theorem resolveLoop_key {key segment rest : Bytes} (h : RendersKey key segment)
    (hrest : rest = [] ∨ ∃ more, rest = 0x2E :: more ∨ rest = 0x5B :: more) :
    resolveLoop hash64 r offset resolved (segment ++ rest) =
      ((if resolved then blockFindOffset hash64 r offset key else findRootOffset hash64 r key) >>=
        fun next => resolveLoop hash64 r next true rest) := by
  obtain ⟨c, tail, heq, hdot, hcut⟩ := cutSegment_key h hrest
  have hne : ¬key.length = 0 := fun hzero => h.1 (List.length_eq_zero_iff.mp hzero)
  rw [heq, resolveLoop, dif_neg hdot]
  split
  · rename_i hnone
    cases hcut.symm.trans hnone
  · rename_i hindex
    cases hcut.symm.trans hindex
  · rename_i hkey
    cases hcut.symm.trans hkey
    rw [if_neg hne]
    generalize (if resolved then blockFindOffset hash64 r offset key
      else findRootOffset hash64 r key) = found
    cases found <;> rfl

/-- An index is looked up. -/
theorem resolveLoop_index (index : UInt32) (rest : Bytes) :
    resolveLoop hash64 r offset true (0x5B :: Json.decimalNat index.toNat ++ 0x5D :: rest) =
      (arrayAtOffset r offset index >>= fun next => resolveLoop hash64 r next true rest) := by
  have hcut := cutSegment_index index rest
  rw [List.cons_append] at hcut ⊢
  rw [resolveLoop, dif_neg (by decide)]
  split
  · rename_i hnone
    cases hcut.symm.trans hnone
  · rename_i hindex
    cases hcut.symm.trans hindex
    rw [if_neg (by decide)]
    cases arrayAtOffset r offset index <;> rfl
  · rename_i hkey
    cases hcut.symm.trans hkey

end

/-! ## Steps in a file -/

theorem mem_iff_lookup {members : List (Bytes × Value)} (hnodup : (members.map Prod.fst).Nodup)
    {key : Bytes} {value : Value} : members.lookup key = some value ↔ (key, value) ∈ members := by
  induction members with
  | nil => simp
  | cons m members ih =>
    obtain ⟨k, v⟩ := m
    obtain ⟨hfresh, hnodup⟩ := List.nodup_cons.mp hnodup
    rw [List.lookup_cons, List.mem_cons]
    by_cases hkey : key = k
    · subst hkey
      simp only [beq_self_eq_true, Option.some.injEq, Prod.mk.injEq, true_and]
      constructor
      · intro heq
        exact .inl heq.symm
      · rintro (heq | hmem)
        · exact heq.symm
        · exact absurd (List.mem_map_of_mem hmem) hfresh
    · have hother : (key == k) = false := beq_eq_false_iff_ne.mpr hkey
      simp only [hother, ih hnodup, Prod.mk.injEq, hkey, false_and, false_or]

theorem mem_membersInFileOrder {hash64 : Bytes → UInt64} {key : Bytes} {value : Value}
    {members : List (Bytes × Value)} : (key, value) ∈ membersInFileOrder hash64 members ↔
      ∃ value', (key, value') ∈ members ∧ value = value'.inFileOrder hash64 := by
  induction members with
  | nil => simp [membersInFileOrder]
  | cons m members ih =>
    obtain ⟨k, v⟩ := m
    rw [membersInFileOrder, List.mem_cons, ih]
    constructor
    · rintro (heq | ⟨value', hmem, rfl⟩)
      · cases heq
        exact ⟨v, List.mem_cons_self, rfl⟩
      · exact ⟨value', List.mem_cons_of_mem _ hmem, rfl⟩
    · rintro ⟨value', hmem, rfl⟩
      rcases List.mem_cons.mp hmem with heq | hmem
      · cases heq
        exact .inl rfl
      · exact .inr ⟨value', hmem, rfl⟩

/-- An entry with this key and a value of its own. -/
def HeldEntry (hash64 : Bytes → UInt64) (r : Reader) (entry : Entry) (m : Bytes × Value) : Prop :=
  HoldsKey hash64 r entry m.1 ∧ Holds hash64 r entry.valueOffset m.2

theorem HoldsMembers.entries {hash64 : Bytes → UInt64} {r : Reader} :
    ∀ {members : List (Bytes × Value)} {start : UInt64}, HoldsMembers hash64 r start members →
      ∃ entries, List.Forall₂ (HeldEntry hash64 r) entries members ∧
        ∀ i entry, entries[i]? = some entry →
          readEntry r (start + UInt64.ofNat i * rootEntrySize) = .ok entry
  | [], _, _ => ⟨[], .nil, fun _ _ h => by cases h⟩
  | (key, value) :: members, start, h => by
    rw [HoldsMembers] at h
    obtain ⟨⟨entry, hread, hkey, hvalue⟩, hrest⟩ := h
    obtain ⟨entries, hheld, hreads⟩ := HoldsMembers.entries hrest
    refine ⟨entry :: entries, .cons ⟨hkey, hvalue⟩ hheld, ?_⟩
    intro i found hi
    cases i with
    | zero =>
      cases hi
      have hzero : UInt64.ofNat 0 * rootEntrySize = 0 := rfl
      rwa [hzero, UInt64.add_zero]
    | succ i =>
      have hplace : start + UInt64.ofNat (i + 1) * rootEntrySize =
          start + 24 + UInt64.ofNat i * rootEntrySize := by
        rw [UInt64.ofNat_add, UInt64.add_mul, UInt64.add_comm (_ * _), ← UInt64.add_assoc]
        rfl
      rw [hplace]
      exact hreads i found hi

theorem HoldsKey.keyHeld {hash64 : Bytes → UInt64} {r : Reader} {entry : Entry} {key : Bytes}
    (h : HoldsKey hash64 r entry key) : KeyHeld r entry key := by
  have hfour : (4 : UInt64).toNat = 4 := rfl
  have hpool := entry.keyPoolOffset.toNat_lt
  have hplace : (entry.keyPoolOffset.toUInt64 + 4).toNat = entry.keyPoolOffset.toNat + 4 := by
    rw [UInt64.toNat_add, UInt32.toNat_toUInt64, hfour]
    omega
  obtain ⟨hat, -⟩ := hasAt_of_load h.bytes
  exact ⟨h.length_eq, hplace ▸ hat⟩

/-- An entry has one key. -/
theorem KeyHeld.unique {r : Reader} {entry : Entry} {key key' : Bytes} (h : KeyHeld r entry key)
    (h' : KeyHeld r entry key') : key = key' := by
  have hlength : key.length = key'.length := h.1.symm.trans h'.1
  exact (List.prefix_of_prefix_length_le h.2 h'.2 hlength.le).eq_of_length hlength

theorem exists_of_forall₂ {α β : Type} {R : α → β → Prop} {l : List α} {l' : List β}
    (h : List.Forall₂ R l l') {a : α} (ha : a ∈ l) : ∃ b ∈ l', R a b := by
  induction h with
  | nil => cases ha
  | cons hab _ ih =>
    rcases List.mem_cons.mp ha with rfl | ha
    · exact ⟨_, List.mem_cons_self, hab⟩
    · obtain ⟨b, hb, hR⟩ := ih ha
      exact ⟨b, List.mem_cons_of_mem _ hb, hR⟩

/-- A search among the entries of some members finds the member with the key, if any. -/
theorem search_held {hash64 : Bytes → UInt64} {r : Reader} {start entryCount : UInt64}
    {entries : List Entry} {members : List (Bytes × Value)}
    (hheld : List.Forall₂ (HeldEntry hash64 r) entries members)
    (hindexed : Indexed r start entries) (hcount : entryCount.toNat = entries.length)
    (hnodup : (members.map Prod.fst).Nodup) {key : Bytes} (hkey : key.length < 2 ^ 64) :
    (∀ value, members.lookup key = some value →
      ∃ entry, binarySearchEntries r start entryCount (hash64 key) key = .ok entry ∧
        Holds hash64 r entry.valueOffset value) ∧
    (members.lookup key = none →
      binarySearchEntries r start entryCount (hash64 key) key = .no) := by
  have hanswers := binarySearchEntries_spec hindexed (fun entry _ => keyEquals_ok r entry hkey)
    hcount (hash64 key)
  -- what is found is the member with the key
  have hsound : ∀ entry, entry ∈ entries → keyEquals r entry key = .ok true →
      ∃ value, (key, value) ∈ members ∧ Holds hash64 r entry.valueOffset value := by
    intro entry hmem hequal
    obtain ⟨⟨k, value⟩, hmember, hk, hvalue⟩ := exists_of_forall₂ hheld hmem
    obtain rfl : k = key := hk.keyHeld.unique ((keyEquals_iff hkey).mp hequal)
    exact ⟨value, hmember, hvalue⟩
  -- and a member with the key is found
  have hcomplete : ∀ value, (key, value) ∈ members →
      ∃ entry ∈ entries, entry.keyHash64 = hash64 key ∧ keyEquals r entry key = .ok true := by
    intro value hmem
    obtain ⟨entry, hentry, hk, -⟩ := exists_of_forall₂ hheld.flip hmem
    exact ⟨entry, hentry, hk.hash_eq, (keyEquals_iff hkey).mpr hk.keyHeld⟩
  cases hresult : binarySearchEntries r start entryCount (hash64 key) key with
  | fault =>
    rw [hresult] at hanswers
    exact hanswers.elim
  | ok entry =>
    rw [hresult] at hanswers
    obtain ⟨hmem, -, hequal⟩ := hanswers
    obtain ⟨value', hmember, hvalue⟩ := hsound entry hmem hequal
    have hlookup := (mem_iff_lookup hnodup).mpr hmember
    constructor
    · intro value hvalue'
      cases hlookup.symm.trans hvalue'
      exact ⟨entry, rfl, hvalue⟩
    · intro hnone
      cases hlookup.symm.trans hnone
  | no =>
    rw [hresult] at hanswers
    refine ⟨?_, fun _ => rfl⟩
    intro value hvalue
    obtain ⟨entry, hentry, hhash, hequal⟩ := hcomplete value ((mem_iff_lookup hnodup).mp hvalue)
    cases hequal.symm.trans (hanswers entry hentry hhash)

theorem indexed_held {hash64 : Bytes → UInt64} {r : Reader} {start : UInt64}
    {entries : List Entry} {members : List (Bytes × Value)}
    (hheld : List.Forall₂ (HeldEntry hash64 r) entries members)
    (hread : ∀ i entry, entries[i]? = some entry →
      readEntry r (start + UInt64.ofNat i * rootEntrySize) = .ok entry)
    (hsorted : members.Pairwise fun a b => (hash64 a.1).toNat ≤ (hash64 b.1).toNat)
    (hlength : members.length < 2 ^ 32) : Indexed r start entries := by
  refine ⟨hread, ?_, by rw [hheld.length_eq]; omega⟩
  clear hread hlength
  induction hheld with
  | nil => exact .nil
  | @cons entry m entries members hm hrest ih =>
    obtain ⟨hfirst, hsorted⟩ := List.pairwise_cons.mp hsorted
    refine .cons ?_ (ih hsorted)
    intro entry' hentry'
    obtain ⟨m', hm', hheld'⟩ := exists_of_forall₂ hrest hentry'
    rw [hm.1.hash_eq, hheld'.1.hash_eq, UInt64.le_iff_toNat_le]
    exact hfirst m' hm'

/-- The members of the root or of a block, in the order of the file, have the keys they had
and their values in file order. -/
theorem lookup_inFileOrder {hash64 : Bytes → UInt64} {members : List (Bytes × Value)}
    (hnodup : (members.map Prod.fst).Nodup) (key : Bytes) :
    (stableSort (fun m => (hash64 m.1).toNat) (membersInFileOrder hash64 members)).lookup key =
      (members.lookup key).map (Value.inFileOrder hash64) := by
  have hperm := stableSort_perm (fun m : Bytes × Value => (hash64 m.1).toNat)
    (membersInFileOrder hash64 members)
  have hkeys := (rearrangedMembers_inFileOrder hash64 members).keys_eq
  have hnodup' := (hperm.map Prod.fst).nodup_iff.mpr (hkeys ▸ hnodup)
  refine Option.ext fun value => ?_
  rw [mem_iff_lookup hnodup', hperm.mem_iff, mem_membersInFileOrder, Option.map_eq_some_iff]
  constructor
  · rintro ⟨value', hmem, rfl⟩
    exact ⟨value', (mem_iff_lookup hnodup).mpr hmem, rfl⟩
  · rintro ⟨value', hlookup, rfl⟩
    exact ⟨value', (mem_iff_lookup hnodup).mp hlookup, rfl⟩

/-- A call that looks a value up has found it in the file, in file order, or has said that there
is none. -/
def Located (hash64 : Bytes → UInt64) (r : Reader) (found : Outcome UInt64) :
    Option Value → Prop
  | some value => ∃ offset, found = .ok offset ∧ Holds hash64 r offset (value.inFileOrder hash64)
  | none => found = .no

theorem Located.bind {hash64 : Bytes → UInt64} {r : Reader} {found : Outcome UInt64}
    {value : Option Value} {next : UInt64 → Outcome UInt64} {onward : Value → Option Value}
    (h : Located hash64 r found value)
    (hnext : ∀ offset v, value = some v → Holds hash64 r offset (v.inFileOrder hash64) →
      Located hash64 r (next offset) (onward v)) :
    Located hash64 r (found >>= next) (value.bind onward) := by
  cases value with
  | none =>
    have hno : found = .no := h
    rw [hno]
    rfl
  | some v =>
    obtain ⟨offset, rfl, hholds⟩ := h
    exact hnext offset v rfl hholds

/-- A search of entries in the file, for a key of some members. -/
theorem located_search {hash64 : Bytes → UInt64} {r : Reader} {start entryCount : UInt64}
    {members : List (Bytes × Value)}
    (hmembers : HoldsMembers hash64 r start
      (stableSort (fun m => (hash64 m.1).toNat) (membersInFileOrder hash64 members)))
    (hcount : entryCount.toNat = members.length) (hsmall : members.length < 2 ^ 32)
    (hnodup : (members.map Prod.fst).Nodup) {key : Bytes} (hkey : key.length < 2 ^ 64) :
    Located hash64 r (do
      let entry ← binarySearchEntries r start entryCount (hash64 key) key
      return entry.valueOffset) (members.lookup key) := by
  obtain ⟨entries, hheld, hread⟩ := hmembers.entries
  have hlength : (stableSort (fun m => (hash64 m.1).toNat)
      (membersInFileOrder hash64 members)).length = members.length := by
    rw [length_stableSort, (rearrangedMembers_inFileOrder hash64 members).length_eq]
  have hsorted := (isStableSort_stableSort (fun m : Bytes × Value => (hash64 m.1).toNat)
    (membersInFileOrder hash64 members)).sorted
  have hperm := stableSort_perm (fun m : Bytes × Value => (hash64 m.1).toNat)
    (membersInFileOrder hash64 members)
  have hkeys := (rearrangedMembers_inFileOrder hash64 members).keys_eq
  have hindexed := indexed_held hheld hread hsorted (by omega)
  obtain ⟨hfound, hnone⟩ := search_held hheld hindexed
    (hcount.trans (hlength.symm.trans hheld.length_eq.symm))
    ((hperm.map Prod.fst).nodup_iff.mpr (hkeys ▸ hnodup)) hkey
  rw [lookup_inFileOrder hnodup] at hfound hnone
  cases hlookup : members.lookup key with
  | none =>
    rw [hnone (by rw [hlookup]; rfl)]
    rfl
  | some value =>
    obtain ⟨entry, hsearch, hholds⟩ := hfound _ (by rw [hlookup]; rfl)
    rw [hsearch]
    exact ⟨entry.valueOffset, rfl, hholds⟩

section

variable {hash64 : Bytes → UInt64} {r : Reader} {offset : UInt64}

/-- The kind byte of a node, seen from a body that is read for another kind. -/
theorem loadByte_of_kindAt {kind other : Kind} (h : kindAt r offset = .ok kind)
    (hne : kind ≠ other) : ∃ byte, loadByte r.base offset = .ok byte ∧ byte ≠ other.byte := by
  rw [kindAt] at h
  split at h
  · cases h
  obtain ⟨byte, hbyte, h⟩ := bind_eq_ok.mp h
  refine ⟨byte, hbyte, ?_⟩
  rintro rfl
  rw [Kind.ofByte_byte] at h
  cases h
  exact hne rfl

theorem Scalar.kind_ne (s : Scalar) : s.kind ≠ .block ∧ s.kind ≠ .array := by
  cases s with
  | bool value => cases value <;> exact ⟨Kind.noConfusion, Kind.noConfusion⟩
  | _ => exact ⟨Kind.noConfusion, Kind.noConfusion⟩

theorem blockBodyOffsets_no {kind : Kind} (h : kindAt r offset = .ok kind)
    (hne : kind ≠ .block) : blockBodyOffsets r offset = .no := by
  obtain ⟨byte, hbyte, hother⟩ := loadByte_of_kindAt h hne
  rw [blockBodyOffsets]
  split
  · rfl
  · rw [hbyte, ok_bind, if_pos hother]

theorem arrayBodyOffsets_no {kind : Kind} (h : kindAt r offset = .ok kind)
    (hne : kind ≠ .array) : arrayBodyOffsets r offset = .no := by
  obtain ⟨byte, hbyte, hother⟩ := loadByte_of_kindAt h hne
  rw [arrayBodyOffsets]
  split
  · rfl
  · rw [hbyte, ok_bind, if_pos hother]

/-- A key step in the file. -/
theorem located_key {value : Value} (hdistinct : value.KeysDistinct)
    (h : Holds hash64 r offset (value.inFileOrder hash64)) {key : Bytes}
    (hkey : key.length < 2 ^ 64) :
    Located hash64 r (blockFindOffset hash64 r offset key) (value.child (.key key)) := by
  have hkind := h.kindAt
  rw [blockFindOffset]
  cases value with
  | scalar s =>
    rw [Value.inFileOrder] at hkind
    rw [blockBodyOffsets_no hkind (Scalar.kind_ne s).1]
    rfl
  | array elements =>
    rw [Value.inFileOrder] at hkind
    rw [blockBodyOffsets_no hkind Kind.noConfusion]
    rfl
  | block members =>
    rw [Value.inFileOrder, Holds] at h
    obtain ⟨-, header, start, hbody, hcount, hmembers⟩ := h
    rw [length_stableSort, (rearrangedMembers_inFileOrder hash64 members).length_eq] at hcount
    have hlt := header.childCount.toNat_lt
    rw [hbody, ok_bind]
    exact located_search hmembers ((UInt32.toNat_toUInt64 _).trans hcount) (by omega)
      hdistinct.1 hkey

theorem HoldsElements.getElem? : ∀ {elements : List Value} {start : UInt64} {i : Nat}
    {value : Value}, HoldsElements hash64 r start elements → elements[i]? = some value →
      ∃ next, loadU64 r.base (start + UInt64.ofNat i * arrayElementSize) = .ok next ∧
        Holds hash64 r next value
  | first :: elements, start, i, value, h, hi => by
    rw [HoldsElements] at h
    obtain ⟨⟨-, next, hload, hnext⟩, hrest⟩ := h
    cases i with
    | zero =>
      cases hi
      have hzero : UInt64.ofNat 0 * arrayElementSize = 0 := rfl
      rw [hzero, UInt64.add_zero]
      exact ⟨next, hload, hnext⟩
    | succ i =>
      have hplace : start + UInt64.ofNat (i + 1) * arrayElementSize =
          start + 8 + UInt64.ofNat i * arrayElementSize := by
        rw [UInt64.ofNat_add, UInt64.add_mul, UInt64.add_comm (_ * _), ← UInt64.add_assoc]
        rfl
      rw [hplace]
      exact hrest.getElem? hi

theorem getElem?_elementsInFileOrder : ∀ (elements : List Value) (i : Nat),
    (elementsInFileOrder hash64 elements)[i]? =
      elements[i]?.map (Value.inFileOrder hash64)
  | [], _ => rfl
  | _ :: _, 0 => rfl
  | _ :: elements, i + 1 => getElem?_elementsInFileOrder elements i

/-- An index step in the file. -/
theorem located_index {value : Value} (h : Holds hash64 r offset (value.inFileOrder hash64))
    (index : UInt32) :
    Located hash64 r (arrayAtOffset r offset index) (value.child (.index index)) := by
  have hkind := h.kindAt
  rw [arrayAtOffset]
  cases value with
  | scalar s =>
    rw [Value.inFileOrder] at hkind
    rw [arrayBodyOffsets_no hkind (Scalar.kind_ne s).2]
    rfl
  | block members =>
    rw [Value.inFileOrder] at hkind
    rw [arrayBodyOffsets_no hkind Kind.noConfusion]
    rfl
  | array elements =>
    rw [Value.inFileOrder, Holds] at h
    obtain ⟨-, header, start, hbody, hcount, helements⟩ := h
    rw [length_elementsInFileOrder] at hcount
    rw [hbody, ok_bind, Value.child]
    dsimp only
    cases hi : elements[index.toNat]? with
    | none =>
      have hge := List.getElem?_eq_none_iff.mp hi
      rw [if_pos]
      · rfl
      · rw [ge_iff_le, UInt32.le_iff_toNat_le]
        omega
    | some element =>
      obtain ⟨hlt, -⟩ := List.getElem?_eq_some_iff.mp hi
      rw [if_neg]
      · have hfile : (elementsInFileOrder hash64 elements)[index.toNat]? =
            some (element.inFileOrder hash64) := by
          rw [getElem?_elementsInFileOrder, hi]
          rfl
        have hindex : index.toUInt64 = UInt64.ofNat index.toNat := by
          apply UInt64.toNat_inj.mp
          have hbound := index.toNat_lt
          rw [UInt32.toNat_toUInt64, UInt64.toNat_ofNat', Nat.mod_eq_of_lt (by omega)]
        rw [hindex]
        exact helements.getElem? hfile
      · rw [ge_iff_le, UInt32.le_iff_toNat_le]
        omega

theorem membersKeysDistinct_mem {m : Bytes × Value} : ∀ {members : List (Bytes × Value)},
    membersKeysDistinct members → m ∈ members → m.2.KeysDistinct
  | (_, _) :: _, ⟨hvalue, hrest⟩, hm => by
    rcases List.mem_cons.mp hm with rfl | hm
    · exact hvalue
    · exact membersKeysDistinct_mem hrest hm

theorem elementsKeysDistinct_mem {e : Value} : ∀ {elements : List Value},
    elementsKeysDistinct elements → e ∈ elements → e.KeysDistinct
  | _ :: _, ⟨hvalue, hrest⟩, he => by
    rcases List.mem_cons.mp he with rfl | he
    · exact hvalue
    · exact elementsKeysDistinct_mem hrest he

theorem mem_of_lookup {members : List (Bytes × Value)} {key : Bytes} {value : Value}
    (h : members.lookup key = some value) : (key, value) ∈ members := by
  obtain ⟨before, behind, heq, -⟩ := List.lookup_eq_some_iff.mp h
  rw [heq]
  exact List.mem_append_right _ List.mem_cons_self

/-- What is below a value has distinct keys too. -/
theorem Value.KeysDistinct.child {value child : Value} {step : Step} (h : value.KeysDistinct)
    (hchild : value.child step = some child) : child.KeysDistinct := by
  cases value with
  | scalar s => cases hchild
  | block members =>
    cases step with
    | index index => cases hchild
    | key key => exact membersKeysDistinct_mem h.2 (mem_of_lookup hchild)
  | array elements =>
    cases step with
    | key key => cases hchild
    | index index => exact elementsKeysDistinct_mem h (List.mem_of_getElem? hchild)

/-- The path loop follows the steps. -/
theorem located_steps : ∀ {steps : List Step} {text : Bytes} {value : Value} {offset : UInt64},
    RendersSteps steps text → text.length < 2 ^ 64 → value.KeysDistinct →
    Holds hash64 r offset (value.inFileOrder hash64) →
      Located hash64 r (resolveLoop hash64 r offset true text) (value.follow steps)
  | [], _, value, offset, rfl, _, _, h => ⟨offset, by rw [resolveLoop]; rfl, h⟩
  | .key key :: steps, _, value, offset, ⟨segment, rest, hkey, hrest, heq⟩, hlength, hdistinct,
      h => by
    subst heq
    rw [List.cons_append, resolveLoop_dot, resolveLoop_key hkey hrest.rest, if_pos rfl,
      Value.follow]
    simp only [List.cons_append, List.length_cons, List.length_append] at hlength
    have hle := hkey.length_le
    refine (located_key hdistinct h (by omega)).bind fun next child hchild hnext => ?_
    exact located_steps hrest (by omega) (hdistinct.child hchild) hnext
  | .index index :: steps, _, value, offset, ⟨rest, hrest, heq⟩, hlength, hdistinct, h => by
    subst heq
    rw [resolveLoop_index, Value.follow]
    simp only [List.cons_append, List.length_cons, List.length_append] at hlength
    refine (located_index h index).bind fun next child hchild hnext => ?_
    exact located_steps hrest (by omega) (hdistinct.child hchild) hnext

end

/-! ## Paths in the file of a document -/

theorem Value.kind_inFileOrder (hash64 : Bytes → UInt64) (value : Value) :
    (value.inFileOrder hash64).kind = value.kind := by
  cases value <;> rw [Value.inFileOrder] <;> rfl

theorem Value.depth_child {value child : Value} {step : Step} (h : value.child step = some child) :
    child.depth ≤ value.depth := by
  cases value with
  | scalar s => cases h
  | block members =>
    cases step with
    | index index => cases h
    | key key =>
      rw [Value.depth]
      exact (le_membersDepth (mem_of_lookup h)).trans (Nat.le_succ _)
  | array elements =>
    cases step with
    | key key => cases h
    | index index =>
      rw [Value.depth]
      exact (le_elementsDepth (List.mem_of_getElem? h)).trans (Nat.le_succ _)

theorem Value.depth_follow : ∀ {steps : List Step} {value below : Value},
    value.follow steps = some below → below.depth ≤ value.depth
  | [], _, _, rfl => Nat.le_refl _
  | step :: steps, value, below, h => by
    obtain ⟨child, hchild, hbelow⟩ := Option.bind_eq_some_iff.mp h
    exact (Value.depth_follow hbelow).trans (Value.depth_child hchild)

theorem Document.depth_follow {document : Document} {steps : List Step} {value : Value}
    (h : document.follow steps = some value) : value.depth ≤ membersDepth document := by
  cases steps with
  | nil => cases h
  | cons step steps =>
    cases step with
    | index index => cases h
    | key key =>
      obtain ⟨child, hchild, hvalue⟩ := Option.bind_eq_some_iff.mp h
      exact (Value.depth_follow hvalue).trans (le_membersDepth (mem_of_lookup hchild))

/-- Resolving a path follows its steps in the document that the root index holds. -/
theorem located_path {hash64 : Bytes → UInt64} {r : Reader} {document : Document}
    (hcount : r.header.rootCount.toNat = document.length) (hsmall : document.length < 2 ^ 32)
    (hmembers : HoldsMembers hash64 r r.header.rootIndexOffset (document.inFileOrder hash64))
    (hdistinct : document.KeysDistinct) {steps : List Step} {path : Bytes}
    (hpath : RendersPath steps path) (hlength : path.length < 2 ^ 64) :
    Located hash64 r (resolvePath hash64 r path) (document.follow steps) := by
  cases steps with
  | nil => exact hpath.elim
  | cons step steps =>
    cases step with
    | index index => exact hpath.elim
    | key key =>
      obtain ⟨segment, rest, hkey, hrest, rfl⟩ := hpath
      have hle := hkey.length_le
      have hpos : 0 < key.length := List.length_pos_iff.mpr hkey.1
      rw [List.length_append] at hlength
      rw [resolvePath, if_neg (by rw [List.length_append]; omega), resolveLoop_key hkey hrest.rest,
        if_neg (by decide), Document.follow]
      refine (located_search hmembers hcount hsmall hdistinct.1 (by omega)).bind ?_
      intro offset value hvalue hholds
      exact located_steps hrest (by omega)
        (membersKeysDistinct_mem hdistinct.2 (mem_of_lookup hvalue)) hholds

/-- In the file that a writer returns, `find` succeeds on a path exactly when its steps can be
followed in the document, and what it returns is the value they lead to. -/
theorem find_follows {env : Env} {options : Option WriterOptions} {ops : List Op} {w : Writer}
    (hrun : (Writer.create options).runs env ops = some w) (hclosed : w.currentScope = none) :
    ∃ document : Document, Builder.empty.run ops = some ⟨document, []⟩ ∧
      (documentSize env.hash64 document < 2 ^ 32 → document.KeysDistinct →
        w.Finalizes env document fun b => ∃ r, openBuffer true b = .ok r ∧
        ∀ (steps : List Step) (path : Bytes), RendersPath steps path → path.length < 2 ^ 64 →
          (∀ value, document.follow steps = some value → ∃ ref,
            find env.hash64 r path = .ok ref ∧ ref.kind = value.kind ∧
            readValue r r.size.toNat ref = .ok (value.inFileOrder env.hash64)) ∧
          (document.follow steps = none → find env.hash64 r path = .no)) := by
  obtain ⟨document, hb, hwritten⟩ := runs_written hrun hclosed
  refine ⟨document, hb, fun hsize hdistinct => ?_⟩
  refine (hwritten hsize).mono fun b hbytes => ⟨_, openBuffer_document hbytes, ?_⟩
  intro steps path hpath hlength
  have hmembers := document_holds hbytes hsize
  obtain ⟨hnodes, hstrings, hfooter, hend⟩ := document_parts env.hash64 document
  have hcount : (documentHeader env.hash64 document).rootCount.toNat = document.length :=
    toNat_ofNat_of_lt64 (by omega)
  have hlocated := located_path hcount (by omega) hmembers hdistinct hpath hlength
  constructor
  · intro value hvalue
    rw [hvalue] at hlocated
    obtain ⟨offset, hresolve, hholds⟩ := hlocated
    refine ⟨{ nodeOffset := offset, kind := value.kind }, ?_, rfl, ?_⟩
    · rw [find, hresolve, ok_bind, hholds.kindAt, ok_bind, Value.kind_inFileOrder]
      rfl
    · rw [← Value.kind_inFileOrder env.hash64]
      refine readValue_of_holds ?_ hholds
      have hdepth := membersDepth_le_width env.hash64 (nodesStart document) document 0
      have hbelow := Document.depth_follow hvalue
      rw [depth_inFileOrder, Buffer.toNat_size, hbytes, length_documentFile]
      omega
  · intro hnone
    rw [hnone] at hlocated
    have hresolve : resolvePath env.hash64 _ path = .no := hlocated
    rw [find, hresolve]
    rfl

/-- A colliding key behind a bare one, through a quote and an index: `a."b.c"[1]`. -/
theorem find_follows_quoted :
    ∃ w b w' r ref, (Writer.create none).runs (.succeeding fun _ => 0)
        [.beginBlock (.data [0x61]), .setNull (.data [0x62]),
          .beginArray (.data [0x62, 0x2E, 0x63]), .appendNull, .appendBool true, .endArray,
          .endBlock] = some w ∧
      finalizeToBuffer (.succeeding fun _ => 0) w = .returned b.bytes w' ∧
      openBuffer true b = .ok r ∧
      find (fun _ => 0) r [0x61, 0x2E, 0x22, 0x62, 0x2E, 0x63, 0x22, 0x5B, 0x31, 0x5D] =
        .ok ref ∧
      ref.kind = .true ∧ readValue r r.size.toNat ref = .ok (.scalar (.bool true)) := by
  obtain ⟨w, hrun, hclosed, hworkers⟩ : ∃ w, (Writer.create none).runs (.succeeding fun _ => 0)
      [.beginBlock (.data [0x61]), .setNull (.data [0x62]),
        .beginArray (.data [0x62, 0x2E, 0x63]), .appendNull, .appendBool true, .endArray,
        .endBlock] = some w ∧ w.currentScope = none ∧ WorkersFit w.options.workerCount :=
    ⟨_, rfl, rfl, by decide⟩
  obtain ⟨document, hb, hfile⟩ := find_follows hrun hclosed
  obtain rfl : document = [([0x61], .block [([0x62], .scalar .null),
      ([0x62, 0x2E, 0x63], .array [.scalar .null, .scalar (.bool true)])])] := by
    cases hb
    rfl
  obtain ⟨b, w', hreturned, r, hopen, hfind⟩ := (hfile (by decide +kernel)
    ⟨by decide, ⟨by decide, trivial, ⟨trivial, trivial, trivial⟩, trivial⟩, trivial⟩).returned
      (Env.succeeding_succeeds _) hworkers
  have hpath : RendersPath [.key [0x61], .key [0x62, 0x2E, 0x63], .index 1]
      [0x61, 0x2E, 0x22, 0x62, 0x2E, 0x63, 0x22, 0x5B, 0x31, 0x5D] := by
    refine ⟨[0x61], [0x2E, 0x22, 0x62, 0x2E, 0x63, 0x22, 0x5B, 0x31, 0x5D],
      ⟨by decide, .inl ⟨rfl, by decide, by decide, by decide, by decide⟩⟩, ?_, rfl⟩
    refine ⟨[0x22, 0x62, 0x2E, 0x63, 0x22], [0x5B, 0x31, 0x5D],
      ⟨by decide, .inr ⟨0x22, .inr rfl, by decide, rfl⟩⟩, ⟨[], rfl, ?_⟩, rfl⟩
    simp [Json.decimalNat, Json.digit]
  obtain ⟨hfound, -⟩ := hfind _ _ hpath (by decide)
  obtain ⟨ref, href, hkind, hread⟩ := hfound (.scalar (.bool true)) rfl
  rw [Value.inFileOrder] at hread
  exact ⟨w, b, w', r, ref, hrun, hreturned, hopen, href, hkind, hread⟩

end Hrbl
