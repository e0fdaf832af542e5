import Hrbl.Graph

/-!
# Runs of a client

A client has its values and its iterators from the reader: it asks for paths, goes on with what it
has been given, and may ask for the root at any index. What such a client can come to is what the
file names: the values of the root index, and those that the blocks and the arrays among them
store. The nodes section as the header sums it up may hold more.
-/

namespace Hrbl

open Lib Lib.Outcome

/-! ## Calls -/

/-- The getters of `bc_hrbl_reader.h`. -/
inductive Getter where
  | bool | int64 | uint64 | float64 | string

/-- A getter on a value; what it returns is for the client alone. -/
def Getter.ask (r : Reader) (value : ValueRef) : Getter → Outcome Unit
  | .bool => do
    let _ ← getBool r value
    return ()
  | .int64 => do
    let _ ← getInt64 r value
    return ()
  | .uint64 => do
    let _ ← getUint64 r value
    return ()
  | .float64 => do
    let _ ← getFloat64 r value
    return ()
  | .string => do
    let _ ← getString r value
    return ()

/-- What a client holds: the values and the iterators that the reader has returned, in order. -/
structure Held where
  values : List ValueRef
  iters : List Iter
deriving DecidableEq

/-- A call of a client. It names a value or an iterator by its place in what it holds. -/
inductive ClientCall where
  | find (path : Bytes)
  | findRoot (key : Bytes)
  | rootAt (index : UInt64)
  | get (getter : Getter) (value : Nat)
  | iterBlock (value : Nat)
  | iterArray (value : Nat)
  | iterNext (iter : Nat)

/-- The length of a path or a key is a `size_t`. -/
def ClientCall.Sized : ClientCall → Prop
  | .find path => path.length < 2 ^ 64
  | .findRoot key => key.length < 2 ^ 64
  | _ => True

/-- One of the things held; there is no call on one that is not. -/
def onHeld {α : Type} (held : List α) (i : Nat) (ask : α → Outcome Held) : Outcome Held :=
  match held[i]? with
  | none => .no
  | some x => ask x

/-- A call on a reader, with what the client holds before and after it. -/
def Reader.answer (hash64 : Bytes → UInt64) (r : Reader) (held : Held) : ClientCall → Outcome Held
  | .find path => do
    let value ← Hrbl.find hash64 r path
    return { held with values := held.values ++ [value] }
  | .findRoot key => do
    let _ ← findRootOffset hash64 r key
    return held
  | .rootAt index => do
    let _ ← rootAtOffset r index
    return held
  | .get getter i => onHeld held.values i fun value => do
    let _ ← getter.ask r value
    return held
  | .iterBlock i => onHeld held.values i fun value => do
    let iter ← Hrbl.iterBlock r value
    return { held with iters := held.iters ++ [iter] }
  | .iterArray i => onHeld held.values i fun value => do
    let iter ← Hrbl.iterArray r value
    return { held with iters := held.iters ++ [iter] }
  | .iterNext i => onHeld held.iters i fun iter => do
    let (iter', value, _) ← Hrbl.iterNext r iter
    return { values := held.values ++ [value], iters := held.iters.set i iter' }

/-- Calls one after the other; one that returns `false` leaves the client with what it has. -/
def Reader.answers (hash64 : Bytes → UInt64) (r : Reader) : Held → List ClientCall → Outcome Held :=
  relay (r.answer hash64)

/-! ## What a file names -/

section

variable (r : Reader)

/-- An offset that the root index stores, or a block or an array at an offset that is named. -/
inductive Named : UInt64 → Prop where
  | root {entry : Entry} : RootEntry r entry → Named entry.valueOffset
  | entry {block start : UInt64} {header : BlockHeader} {i : Nat} {entry : Entry} : Named block →
      blockBodyOffsets r block = .ok (header, start) → i < header.childCount.toNat →
      HasAt r.base.bytes (start.toNat + i * 24) entry.encode → Named entry.valueOffset
  | element {array start child : UInt64} {header : ArrayHeader} {i : Nat} : Named array →
      arrayBodyOffsets r array = .ok (header, start) → i < header.elementCount.toNat →
      HasAt r.base.bytes (start.toNat + i * 8) (le64 child) → Named child

/-- What is named and in the nodes section, as the header sums it up, is in the file. -/
def NamedInside : Prop :=
  ∀ offset, Named r offset → InNodes r offset → offset.toNat < r.base.bytes.length

end

variable {r : Reader}

/-- A nodes section that ends inside, or is empty, is in the file whatever is named. -/
theorem Header.Confined.namedInside (hlayout : r.header.LayoutAccepted r.size)
    (h : r.header.Confined r.size) : NamedInside r := by
  intro offset _ hin
  -- the kind is asked for without a fault, so that its byte is in the file
  have hsafe := kindAt_confined hlayout h.1 offset
  rw [kindAt, if_neg] at hsafe
  · cases hload : loadByte r.base offset with
    | ok byte =>
      refine loadByte_safe.mp ?_
      rw [hload]
      exact safe_ok _
    | no => exact absurd hload loadByte_ne_no
    | fault =>
      rw [hload] at hsafe
      exact absurd hsafe not_safe_fault
  · rw [not_or, UInt64.not_lt, ge_iff_le, UInt64.not_le]
    exact hin

theorem NamedInside.kindAt_safe (h : NamedInside r) {offset : UInt64} (hnamed : Named r offset) :
    Safe (kindAt r offset) := by
  unfold kindAt
  split
  · exact safe_no
  · rename_i hin
    rw [not_or, UInt64.not_lt, ge_iff_le, UInt64.not_le] at hin
    refine Safe.bind (loadByte_safe.mpr (h offset hnamed hin)) ?_
    intro byte _
    split
    · exact safe_ok _
    · exact safe_no

/-! ## What a path leads to -/

theorem hasAt_of_readEntry {place : UInt64} {entry : Entry} (h : readEntry r place = .ok entry) :
    HasAt r.base.bytes place.toNat entry.encode := by
  unfold readEntry at h
  split at h
  · cases h
  · exact loadEntry_eq_ok.mp h

section

variable {hash64 : Bytes → UInt64} (hlayout : r.header.LayoutAccepted r.size)
  (hcount : 128 + 24 * r.header.rootCount.toNat < 2 ^ 64)

include hlayout hcount

/-- A key that is found at the root is that of an entry of the root index. -/
theorem findRootOffset_named {key : Bytes} {offset : UInt64}
    (h : findRootOffset hash64 r key = .ok offset) : Named r offset := by
  obtain ⟨entry, hentry, h⟩ := bind_eq_ok.mp h
  cases h
  obtain ⟨i, hi, hread, -, -⟩ := binarySearchEntries_hit hentry
  rw [UInt64.lt_iff_toNat_lt] at hi
  have hat := hasAt_of_readEntry hread
  rw [rootEntry_place hlayout.rootIndexOffset (by omega)] at hat
  refine .root ⟨i.toNat, hi, ?_⟩
  rw [hlayout.rootIndexOffset]
  exact hat

omit hlayout hcount in
/-- A step from what is named leads to what is named. -/
theorem childOffset_named {offset child : UInt64} {step : Step} (hnamed : Named r offset)
    (h : childOffset hash64 r offset step = .ok child) : Named r child := by
  cases step with
  | key key =>
    obtain ⟨⟨header, start⟩, hbody, h⟩ := bind_eq_ok.mp h
    obtain ⟨entry, hentry, h⟩ := bind_eq_ok.mp h
    cases h
    obtain ⟨i, hi, hread, -, -⟩ := binarySearchEntries_hit hentry
    have hinside : start.toNat + header.childCount.toNat * rootEntrySize.toNat ≤ _ :=
      blockBodyOffsets_inside hbody
    rw [UInt64.lt_iff_toNat_lt, UInt32.toNat_toUInt64] at hi
    have hat := hasAt_of_readEntry hread
    rw [(toNat_table hinside hi).1] at hat
    exact .entry hnamed hbody hi hat
  | index index =>
    obtain ⟨⟨header, start⟩, hbody, h⟩ := bind_eq_ok.mp h
    dsimp only at h
    split at h
    · cases h
    rename_i hindex
    have hinside : start.toNat + header.elementCount.toNat * arrayElementSize.toNat ≤ _ :=
      arrayBodyOffsets_inside hbody
    rw [ge_iff_le, UInt32.not_le, UInt32.lt_iff_toNat_lt, ← UInt32.toNat_toUInt64] at hindex
    have hat := loadU64_eq_ok.mp h
    rw [(toNat_table hinside hindex).1] at hat
    rw [UInt32.toNat_toUInt64] at hindex
    exact .element hnamed hbody hindex hat

theorem resolvePath_named {path : Bytes} {offset : UInt64}
    (h : resolvePath hash64 r path = .ok offset) : Named r offset := by
  obtain ⟨steps, -, hleads⟩ := resolvePath_eq_ok.mp h
  cases steps with
  | nil => exact hleads.elim
  | cons first steps =>
    cases first with
    | index index => exact hleads.elim
    | key key =>
      -- from the root on, each step stays among what is named
      obtain ⟨root, hroot, htrail⟩ := hleads
      have hnamed := findRootOffset_named hlayout hcount hroot
      clear h hroot
      induction htrail with
      | nil => exact hnamed
      | cons head _ ih => exact ih (childOffset_named hnamed head)

end

/-! ## What a client holds -/

/-- An iterator in the file, with nothing before it but what is named. -/
structure Iter.Grounded (r : Reader) (iter : Iter) : Prop where
  inside : iter.Inside r
  entry : iter.isBlock → ∀ i < iter.remaining.toNat, ∀ entry : Entry,
    HasAt r.base.bytes (iter.cursorOffset.toNat + i * 24) entry.encode → Named r entry.valueOffset
  element : ¬iter.isBlock → ∀ i < iter.remaining.toNat, ∀ child,
    HasAt r.base.bytes (iter.cursorOffset.toNat + i * 8) (le64 child) → Named r child

/-- What a client holds is named. -/
structure Held.Grounded (r : Reader) (held : Held) : Prop where
  values : ∀ value ∈ held.values, Named r value.nodeOffset
  iters : ∀ iter ∈ held.iters, iter.Grounded r

theorem Held.grounded_nil : Held.Grounded r ⟨[], []⟩ where
  values _ hvalue := by cases hvalue
  iters _ hiter := by cases hiter

theorem iterBlock_grounded {block : ValueRef} {iter : Iter} (hnamed : Named r block.nodeOffset)
    (h : iterBlock r block = .ok iter) : iter.Grounded r := by
  have hinside := iterBlock_inside h
  unfold iterBlock at h
  split at h
  · cases h
  · obtain ⟨⟨header, start⟩, hbody, h⟩ := bind_eq_ok.mp h
    cases h
    exact ⟨hinside, fun _ i hi entry hat => .entry hnamed hbody hi hat,
      fun hnot => absurd rfl hnot⟩

theorem iterArray_grounded {array : ValueRef} {iter : Iter} (hnamed : Named r array.nodeOffset)
    (h : iterArray r array = .ok iter) : iter.Grounded r := by
  have hinside := iterArray_inside h
  unfold iterArray at h
  split at h
  · cases h
  · obtain ⟨⟨header, start⟩, hbody, h⟩ := bind_eq_ok.mp h
    cases h
    exact ⟨hinside, fun hblock => absurd hblock Bool.false_ne_true,
      fun _ i hi child hat => .element hnamed hbody hi hat⟩

/-- The item that an iterator is on is named. -/
theorem Iter.Grounded.on {iter : Iter} (h : iter.Grounded r) (hremaining : iter.remaining ≠ 0)
    {offset : UInt64} (hon : iter.On r offset) : Named r offset := by
  obtain ⟨hpos, -⟩ := toNat_remaining hremaining
  unfold Iter.On at hon
  split at hon
  · rename_i hblock
    obtain ⟨entry, hread, rfl⟩ := hon
    refine h.entry hblock 0 hpos entry ?_
    rw [Nat.zero_mul, Nat.add_zero]
    exact hasAt_of_readEntry hread
  · rename_i harray
    refine h.element harray 0 hpos offset ?_
    rw [Nat.zero_mul, Nat.add_zero]
    exact loadU64_eq_ok.mp hon

/-- The next item of what a client holds is read inside, and is named with what is left. -/
theorem iterNext_grounded (hinside : NamedInside r) {iter : Iter} (hiter : iter.Grounded r) :
    Safe (iterNext r iter) ∧ ∀ iter' value key, iterNext r iter = .ok (iter', value, key) →
      iter'.Grounded r ∧ Named r value.nodeOffset := by
  obtain ⟨hsafe, hnext⟩ := iterNext_inside hiter.inside fun offset hremaining hon =>
    hinside.kindAt_safe (hiter.on hremaining hon)
  refine ⟨hsafe, ?_⟩
  intro iter' value key hok
  have hinside' := hnext iter' value key hok
  have hlength := r.base.length_lt
  have hplace := hiter.inside
  unfold Iter.Inside at hplace
  unfold iterNext at hok
  split at hok
  · cases hok
  rename_i hremaining
  obtain ⟨hpos, hless⟩ := toNat_remaining hremaining
  split at hok
  · rename_i hblock
    rw [if_pos hblock] at hplace
    -- what is the next item after this one was the one behind it before
    have hcursor : (iter.cursorOffset + blockEntrySize).toNat = iter.cursorOffset.toNat + 24 := by
      rw [UInt64.toNat_add, show blockEntrySize.toNat = 24 from rfl]
      omega
    obtain ⟨entry, hentry, hok⟩ := bind_eq_ok.mp hok
    obtain ⟨range, -, hok⟩ := bind_eq_ok.mp hok
    obtain ⟨kind, -, hok⟩ := bind_eq_ok.mp hok
    cases hok
    refine ⟨⟨hinside', ?_, fun hnot => absurd hblock hnot⟩, ?_⟩
    · intro _ i hi entry' hat
      dsimp only at hi hat
      refine hiter.entry hblock (i + 1) (by omega) entry' ?_
      rw [hcursor] at hat
      rwa [Nat.succ_mul, Nat.add_comm (i * 24), ← Nat.add_assoc]
    · refine hiter.on hremaining ?_
      rw [Iter.On, if_pos hblock]
      exact ⟨entry, hentry, rfl⟩
  · rename_i harray
    rw [if_neg harray] at hplace
    have hcursor : (iter.cursorOffset + arrayElementSize).toNat = iter.cursorOffset.toNat + 8 := by
      rw [UInt64.toNat_add, show arrayElementSize.toNat = 8 from rfl]
      omega
    split at hok
    · cases hok
    obtain ⟨offset, hoffset, hok⟩ := bind_eq_ok.mp hok
    obtain ⟨kind, -, hok⟩ := bind_eq_ok.mp hok
    cases hok
    refine ⟨⟨hinside', fun hblock => absurd hblock harray, ?_⟩, ?_⟩
    · intro _ i hi child hat
      dsimp only at hi hat
      refine hiter.element harray (i + 1) (by omega) child ?_
      rw [hcursor] at hat
      rwa [Nat.succ_mul, Nat.add_comm (i * 8), ← Nat.add_assoc]
    · refine hiter.on hremaining ?_
      rw [Iter.On, if_neg harray]
      exact hoffset

/-! ## Runs -/

/-- No call of a client that starts with nothing reads outside of the file, whatever it asks for. -/
def Reader.RunsSafe (hash64 : Bytes → UInt64) (r : Reader) : Prop :=
  ∀ calls : List ClientCall, (∀ call ∈ calls, call.Sized) → Safe (r.answers hash64 ⟨[], []⟩ calls)

section

variable {hash64 : Bytes → UInt64} (hlayout : r.header.LayoutAccepted r.size)
  (hcount : 128 + 24 * r.header.rootCount.toNat < 2 ^ 64) (hinside : NamedInside r)

include hinside

theorem getter_safe {value : ValueRef} (hnamed : Named r value.nodeOffset) (getter : Getter) :
    Safe (getter.ask r value) := by
  have hkind := hinside.kindAt_safe hnamed
  cases getter with
  | bool => exact Safe.bind (scalarBoolAt_safe hkind) fun _ _ => safe_ok _
  | int64 => exact Safe.bind (scalarInt64At_safe hkind) fun _ _ => safe_ok _
  | uint64 => exact Safe.bind (scalarUint64At_safe hkind) fun _ _ => safe_ok _
  | float64 => exact Safe.bind (scalarFloat64At_safe hkind) fun _ _ => safe_ok _
  | string => exact Safe.bind (scalarStringAt_safe hkind) fun _ _ => safe_ok _

include hlayout hcount

/-- A call of a client that holds what is named reads inside, and leaves such a client. -/
theorem answer_grounded {held : Held} (hheld : held.Grounded r) {call : ClientCall}
    (hcall : call.Sized) : Safe (r.answer hash64 held call) ∧
      ∀ held', r.answer hash64 held call = .ok held' → held'.Grounded r := by
  -- a call that returns no value and no iterator
  have hkept : ∀ {α : Type} {x : Outcome α}, Safe x →
      Safe (x >>= fun _ => Outcome.ok held) ∧
        ∀ held', (x >>= fun _ => Outcome.ok held) = .ok held' → held'.Grounded r := by
    intro α x hx
    refine ⟨Safe.bind hx fun _ _ => safe_ok _, ?_⟩
    intro held' hok
    obtain ⟨_, -, hok⟩ := bind_eq_ok.mp hok
    cases hok
    exact hheld
  -- a call that returns an iterator
  have hopened : ∀ {x : Outcome Iter}, Safe x → (∀ iter, x = .ok iter → iter.Grounded r) →
      Safe (x >>= fun iter => Outcome.ok { held with iters := held.iters ++ [iter] }) ∧
        ∀ held', (x >>= fun iter => Outcome.ok { held with iters := held.iters ++ [iter] }) =
          .ok held' → held'.Grounded r := by
    intro x hx hgrounded
    refine ⟨Safe.bind hx fun _ _ => safe_ok _, ?_⟩
    intro held' hok
    obtain ⟨opened, hopen, hok⟩ := bind_eq_ok.mp hok
    cases hok
    refine ⟨hheld.values, ?_⟩
    intro iter hiter
    rcases List.mem_append.mp hiter with hold | hnew
    · exact hheld.iters iter hold
    · rw [List.mem_singleton.mp hnew]
      exact hgrounded opened hopen
  have hadded : ∀ {value : ValueRef}, Named r value.nodeOffset →
      ∀ value' ∈ held.values ++ [value], Named r value'.nodeOffset := by
    intro value hnamed value' hvalue'
    rcases List.mem_append.mp hvalue' with hold | hnew
    · exact hheld.values value' hold
    · rwa [List.mem_singleton.mp hnew]
  cases call with
  | find path =>
    constructor
    · refine Safe.bind (find_safe hlayout hcount hash64 hcall ?_) fun _ _ => safe_ok _
      intro offset hoffset
      exact hinside.kindAt_safe (resolvePath_named hlayout hcount hoffset)
    · intro held' hok
      obtain ⟨value, hfind, hok⟩ := bind_eq_ok.mp hok
      obtain ⟨offset, hoffset, hfind⟩ := bind_eq_ok.mp hfind
      obtain ⟨kind, -, hfind⟩ := bind_eq_ok.mp hfind
      cases hfind
      cases hok
      exact ⟨hadded (resolvePath_named hlayout hcount hoffset), hheld.iters⟩
  | findRoot key => exact hkept (findRootOffset_safe hlayout hcount hash64 hcall)
  | rootAt index => exact hkept (rootAtOffset_safe hlayout hcount index)
  | get getter i =>
    rw [Reader.answer, onHeld]
    cases hvalue : held.values[i]? with
    | none => exact ⟨safe_no, fun _ hok => by cases hok⟩
    | some value =>
      exact hkept (getter_safe hinside (hheld.values value (List.mem_of_getElem? hvalue)) getter)
  | iterBlock i =>
    rw [Reader.answer, onHeld]
    cases hvalue : held.values[i]? with
    | none => exact ⟨safe_no, fun _ hok => by cases hok⟩
    | some value =>
      refine hopened (iterBlock_safe value) fun iter hiter => iterBlock_grounded ?_ hiter
      exact hheld.values value (List.mem_of_getElem? hvalue)
  | iterArray i =>
    rw [Reader.answer, onHeld]
    cases hvalue : held.values[i]? with
    | none => exact ⟨safe_no, fun _ hok => by cases hok⟩
    | some value =>
      refine hopened (iterArray_safe value) fun iter hiter => iterArray_grounded ?_ hiter
      exact hheld.values value (List.mem_of_getElem? hvalue)
  | iterNext i =>
    rw [Reader.answer, onHeld]
    cases hiter : held.iters[i]? with
    | none => exact ⟨safe_no, fun _ hok => by cases hok⟩
    | some iter =>
      obtain ⟨hsafe, hnext⟩ :=
        iterNext_grounded hinside (hheld.iters iter (List.mem_of_getElem? hiter))
      refine ⟨Safe.bind hsafe fun _ _ => safe_ok _, ?_⟩
      intro held' hok
      obtain ⟨⟨iter', value, key⟩, hok', hok⟩ := bind_eq_ok.mp hok
      cases hok
      obtain ⟨hiter', hnamed⟩ := hnext iter' value key hok'
      refine ⟨hadded hnamed, ?_⟩
      intro other hother
      rcases List.mem_or_eq_of_mem_set hother with hold | hnew
      · exact hheld.iters other hold
      · rwa [hnew]

/-- A run from what is named. -/
theorem answers_safe {calls : List ClientCall} (hcalls : ∀ call ∈ calls, call.Sized) {held : Held}
    (hheld : held.Grounded r) : Safe (r.answers hash64 held calls) := by
  refine relay_safe (Held.Grounded r) ?_ hcalls hheld
  intro held call hheld hcall
  exact answer_grounded hlayout hcount hinside hheld hcall

end

/-- A root index without an end in the address space has an entry that is read outside. -/
theorem not_runsSafe (hash64 : Bytes → UInt64) (hlayout : r.header.LayoutAccepted r.size)
    (hsize : 160 ≤ r.size.toNat) (h : 2 ^ 64 ≤ 128 + 24 * r.header.rootCount.toNat) :
    ¬r.RunsSafe hash64 := by
  intro hsafe
  have hcall := safe_of_relay_single
    (hsafe [.rootAt 768614336404564645] (by simp [ClientCall.Sized]))
  rw [Reader.answer, rootAt_fault hlayout hsize h] at hcall
  exact not_safe_fault hcall

/-- No run of a client that starts with nothing reads outside of a file that has been opened, where
the root index ends below `2 ^ 64` and no offset that is named lies both in the nodes section, as
the header sums it up, and outside of the file. Where the root index does not, one does. -/
theorem client_runs_safe {b : Buffer} (hash64 : Bytes → UInt64) (hopen : openBuffer true b = .ok r) :
    (128 + 24 * r.header.rootCount.toNat < 2 ^ 64 ∧ NamedInside r → r.RunsSafe hash64) ∧
      (r.RunsSafe hash64 → 128 + 24 * r.header.rootCount.toNat < 2 ^ 64) := by
  obtain ⟨rfl, henvelope⟩ := openBuffer_eq_ok.mp hopen
  have hlayout : r.header.LayoutAccepted r.size := henvelope.layout
  have hsize : 160 ≤ r.size.toNat := by
    rw [Buffer.toNat_size]
    exact henvelope.size_le
  constructor
  · rintro ⟨hcount, hinside⟩ calls hcalls
    exact answers_safe hlayout hcount hinside hcalls Held.grounded_nil
  · intro hsafe
    by_contra hcount
    exact not_runsSafe hash64 hlayout hsize (by omega) hsafe

/-- The root of the scattered file is found. -/
theorem scattered_find {b : Buffer} (hbytes : b.bytes = scattered.file fun _ => 0) :
    find (fun _ => 0) ⟨b, scattered.header fun _ => 0⟩ [0x61] = .ok ⟨159, .array⟩ := by
  have hfile : [0x61] <+: (scattered.file fun _ => 0).drop 206 ∧
      [Kind.array.byte] <+: (scattered.file fun _ => 0).drop 159 := by decide +kernel
  rw [← hbytes] at hfile
  have hroot : findRootOffset (fun _ => 0) ⟨b, scattered.header fun _ => 0⟩ [0x61] = .ok 159 :=
    scattered_sound.findRootOffset hbytes List.mem_cons_self rfl ⟨rfl, hfile.1⟩
  have hpath : RendersPath [.key [0x61]] [0x61] :=
    ⟨[0x61], [], ⟨by decide, .inl (by decide)⟩, rfl, rfl⟩
  refine find_eq_ok.mpr ⟨_, hpath.splitPath, ⟨159, hroot, .nil⟩, ?_⟩
  have hin : (159 : UInt64) ≥ (scattered.header fun _ => 0).nodesOffset ∧
      159 < (scattered.header fun _ => 0).nodesOffset + (scattered.header fun _ => 0).nodesSize := by
    decide +kernel
  exact kindAt_eq_ok.mpr ⟨hin, _, loadByte_eq_ok.mpr hfile.2, rfl⟩

/-- The array of the scattered file is found, and two of its items are handed out. -/
theorem client_runs_safe_scattered : ∃ (b : Buffer) (r : Reader), openBuffer true b = .ok r ∧
    r.answers (fun _ => 0) ⟨[], []⟩ [.find [0x61], .iterArray 0, .iterNext 0, .rootAt 0,
        .iterNext 0, .get .bool 2, .iterNext 0] =
      .ok ⟨[⟨159, .array⟩, ⟨200, .null⟩, ⟨201, .true⟩], [⟨184, 200, 2, false⟩]⟩ ∧
    r.RunsSafe fun _ => 0 := by
  obtain ⟨b, hbytes, hrun⟩ : ∃ b : Buffer, b.bytes = scattered.file (fun _ => 0) ∧
      Reader.answers (fun _ => 0) ⟨b, scattered.header fun _ => 0⟩ ⟨[⟨159, .array⟩], []⟩
        [.iterArray 0, .iterNext 0, .rootAt 0, .iterNext 0, .get .bool 2, .iterNext 0] =
      .ok ⟨[⟨159, .array⟩, ⟨200, .null⟩, ⟨201, .true⟩], [⟨184, 200, 2, false⟩]⟩ :=
    ⟨⟨scattered.file fun _ => 0, by decide +kernel⟩, rfl, by decide +kernel⟩
  have hopen := Parts.opened hbytes
  refine ⟨b, _, hopen, ?_, (client_runs_safe (fun _ => 0) hopen).1 ?_⟩
  · rw [Reader.answers, relay, Reader.answer, scattered_find hbytes]
    exact hrun
  · have hlayout := (openBuffer_eq_ok.mp hopen).2.layout
    have hsize : b.size = UInt64.ofNat (scattered.file fun _ => 0).length := by
      rw [Buffer.size, hbytes]
    have hconfined : (scattered.header fun _ => 0).Confined b.size := by
      rw [hsize]
      decide +kernel
    exact ⟨hconfined.2, hconfined.namedInside hlayout⟩

/-- A header of a 160-byte file with so many root entries that their end wraps. -/
def crowdedHeader : Header :=
  { wrappingHeader with
    rootCount := 768614336404564646
    rootIndexSize := 18446744073709551504
    nodesOffset := 16
    nodesSize := 112
    stringsOffset := 128
    stringsSize := 0 }

/-- The last entry but one of the root index of such a file is read in front of address zero. -/
theorem crowded_strays : ∃ (b : Buffer) (r : Reader), openBuffer true b = .ok r ∧ b.size = 160 ∧
    r.header = crowdedHeader ∧ rootAtOffset r 768614336404564645 = .fault ∧
      ∀ hash64, ¬r.RunsSafe hash64 := by
  have hlayout : crowdedHeader.LayoutAccepted 160 := readerHeaderLayoutValid_eq_true.mp (by decide)
  obtain ⟨b, hsize, hsealed⟩ := exists_bare_sealed hlayout
  have hopen : openBuffer true b = .ok ⟨b, crowdedHeader⟩ :=
    openBuffer_eq_ok.mpr ⟨rfl, hsealed.enveloped⟩
  have hlarge : 160 ≤ b.size.toNat := by
    rw [hsize]
    decide
  have hcount : 2 ^ 64 ≤ 128 + 24 * crowdedHeader.rootCount.toNat := by decide
  refine ⟨b, _, hopen, hsize, rfl, rootAt_fault hsealed.layout hlarge hcount, ?_⟩
  intro hash64
  exact not_runsSafe hash64 hsealed.layout hlarge hcount

end Hrbl
