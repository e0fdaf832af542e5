import Hrbl.Paths
import Hrbl.Forging

/-!
# Trails

What a path passes on its way: the text is cut into steps, and the steps follow stored offsets
from a root entry on. `bc_hrbl_reader_kind_at` keeps the end of the way inside the nodes
section; `bc_hrbl_reader_block_body_offsets` and its sibling for arrays, which look at every
container before, only keep it inside the file.
-/

namespace Hrbl

open Lib Lib.Outcome

/-! ## Steps of a text -/

/-- The steps of a path, in any text that the path loop reads. -/
def splitPath (path : Bytes) : Option (List Step) :=
  match path with
  | [] => some []
  | c :: tail =>
    if hdot : c = 0x2E then splitPath tail
    else
      match hcut : cutSegment (c :: tail) with
      | none => none
      | some (.index index, after) =>
        have _hshorter := length_cutSegment_lt hdot hcut
        (splitPath after).map (.index index :: ·)
      | some (.key segment, after) =>
        have _hshorter := length_cutSegment_lt hdot hcut
        if segment.length = 0 then none else (splitPath after).map (.key segment :: ·)
termination_by path.length
decreasing_by
  · exact Nat.lt_succ_self _
  · exact _hshorter
  · exact _hshorter

theorem splitPath_dot (tail : Bytes) : splitPath (0x2E :: tail) = splitPath tail := by
  rw [splitPath, dif_pos rfl]

theorem splitPath_key {key segment rest : Bytes} (h : RendersKey key segment)
    (hrest : rest = [] ∨ ∃ more, rest = 0x2E :: more ∨ rest = 0x5B :: more) :
    splitPath (segment ++ rest) = (splitPath rest).map (.key key :: ·) := by
  obtain ⟨c, tail, heq, hdot, hcut⟩ := cutSegment_key h hrest
  have hne : ¬key.length = 0 := fun hzero => h.1 (List.length_eq_zero_iff.mp hzero)
  rw [heq, splitPath, dif_neg hdot]
  split
  · rename_i hother
    cases hcut.symm.trans hother
  · rename_i hother
    cases hcut.symm.trans hother
  · rename_i hother
    cases hcut.symm.trans hother
    exact if_neg hne

theorem splitPath_index (index : UInt32) (rest : Bytes) :
    splitPath (0x5B :: Json.decimalNat index.toNat ++ 0x5D :: rest) =
      (splitPath rest).map (.index index :: ·) := by
  have hcut := cutSegment_index index rest
  rw [List.cons_append] at hcut ⊢
  rw [splitPath, dif_neg (by decide)]
  split
  · rename_i hother
    cases hcut.symm.trans hother
  · rename_i hother
    cases hcut.symm.trans hother
    rfl
  · rename_i hother
    cases hcut.symm.trans hother

theorem RendersSteps.splitPath {steps : List Step} {text : Bytes} (h : RendersSteps steps text) :
    splitPath text = some steps := by
  induction steps generalizing text with
  | nil =>
    obtain rfl : text = [] := h
    rw [Hrbl.splitPath]
  | cons step steps ih =>
    cases step with
    | key key =>
      obtain ⟨segment, rest, hkey, hrest, rfl⟩ := h
      rw [List.cons_append, splitPath_dot, splitPath_key hkey hrest.rest, ih hrest]
      rfl
    | index index =>
      obtain ⟨rest, hrest, rfl⟩ := h
      rw [splitPath_index, ih hrest]
      rfl

/-- The text of a path splits into its steps. -/
theorem RendersPath.splitPath {steps : List Step} {text : Bytes} (h : RendersPath steps text) :
    splitPath text = some steps := by
  cases steps with
  | nil => exact h.elim
  | cons step steps =>
    cases step with
    | index index => exact h.elim
    | key key =>
      obtain ⟨segment, rest, hkey, hrest, rfl⟩ := h
      rw [splitPath_key hkey hrest.rest, hrest.splitPath]
      rfl

/-- The container a step is made in. -/
def Step.container : Step → Kind
  | .key _ => .block
  | .index _ => .array

/-! ## Offsets along a path -/

section

variable (hash64 : Bytes → UInt64) (r : Reader)

/-- The offset that is stored for a step in the container at an offset. -/
def childOffset (offset : UInt64) : Step → Outcome UInt64
  | .key key => blockFindOffset hash64 r offset key
  | .index index => arrayAtOffset r offset index

/-- Some steps down from an offset. -/
inductive Trail : UInt64 → List Step → UInt64 → Prop
  | nil {offset} : Trail offset [] offset
  | cons {offset next found step steps} (head : childOffset hash64 r offset step = .ok next)
      (tail : Trail next steps found) : Trail offset (step :: steps) found

/-- The offset that the steps of a path lead to, from a root on. -/
def Leads : List Step → UInt64 → Prop
  | .key key :: steps, found =>
    ∃ root, findRootOffset hash64 r key = .ok root ∧ Trail hash64 r root steps found
  | _, _ => False

end

section

variable {hash64 : Bytes → UInt64} {r : Reader}

theorem trail_nil {offset found : UInt64} : Trail hash64 r offset [] found ↔ found = offset := by
  constructor
  · intro h
    cases h
    rfl
  · rintro rfl
    exact .nil

theorem trail_cons {offset found : UInt64} {step : Step} {steps : List Step} :
    Trail hash64 r offset (step :: steps) found ↔
      ∃ next, childOffset hash64 r offset step = .ok next ∧ Trail hash64 r next steps found := by
  constructor
  · intro h
    cases h with
    | cons head tail => exact ⟨_, head, tail⟩
  · rintro ⟨next, head, tail⟩
    exact .cons head tail

/-- The last step of a trail. -/
theorem trail_concat {steps : List Step} {step : Step} {offset found : UInt64} :
    Trail hash64 r offset (steps ++ [step]) found ↔
      ∃ last, Trail hash64 r offset steps last ∧ childOffset hash64 r last step = .ok found := by
  induction steps generalizing offset with
  | nil =>
    simp only [List.nil_append, trail_cons, trail_nil, exists_eq_left, exists_eq_right']
  | cons first steps ih =>
    simp only [List.cons_append, trail_cons, ih]
    constructor
    · rintro ⟨next, hfirst, last, hlast, hfound⟩
      exact ⟨last, ⟨next, hfirst, hlast⟩, hfound⟩
    · rintro ⟨last, ⟨next, hfirst, hlast⟩, hfound⟩
      exact ⟨next, hfirst, last, hlast, hfound⟩

theorem leads_concat {steps : List Step} (hne : steps ≠ []) {step : Step} {found : UInt64} :
    Leads hash64 r (steps ++ [step]) found ↔
      ∃ last, Leads hash64 r steps last ∧ childOffset hash64 r last step = .ok found := by
  cases steps with
  | nil => exact absurd rfl hne
  | cons first steps =>
    cases first with
    | index index =>
      simp only [List.cons_append, Leads, false_and, exists_false]
    | key key =>
      simp only [List.cons_append, Leads, trail_concat]
      constructor
      · rintro ⟨root, hroot, last, hlast, hfound⟩
        exact ⟨last, ⟨root, hroot, hlast⟩, hfound⟩
      · rintro ⟨last, ⟨root, hroot, hlast⟩, hfound⟩
        exact ⟨root, hroot, last, hlast, hfound⟩

theorem Trail.unique {offset found found' : UInt64} {steps : List Step}
    (h : Trail hash64 r offset steps found) (h' : Trail hash64 r offset steps found') :
    found = found' := by
  induction h with
  | nil => exact (trail_nil.mp h').symm
  | cons head tail ih =>
    obtain ⟨next, head', tail'⟩ := trail_cons.mp h'
    rw [head] at head'
    cases head'
    exact ih tail'

theorem Leads.unique {found found' : UInt64} {steps : List Step} (h : Leads hash64 r steps found)
    (h' : Leads hash64 r steps found') : found = found' := by
  cases steps with
  | nil => exact h.elim
  | cons first steps =>
    cases first with
    | index index => exact h.elim
    | key key =>
      obtain ⟨root, hroot, htrail⟩ := h
      obtain ⟨root', hroot', htrail'⟩ := h'
      rw [hroot] at hroot'
      cases hroot'
      exact htrail.unique htrail'

/-! ## The path loop -/

/-- A step of the path loop, which finds a key at the root first. -/
def stepOffset (hash64 : Bytes → UInt64) (r : Reader) (offset : UInt64) (resolved : Bool)
    (step : Step) : Outcome UInt64 :=
  if resolved then childOffset hash64 r offset step
  else
    match step with
    | .key key => findRootOffset hash64 r key
    | .index _ => .no

section

variable {c : UInt8} {tail : Bytes} (hdot : c ≠ 0x2E)

include hdot

theorem splitPath_cut_none (h : cutSegment (c :: tail) = none) :
    splitPath (c :: tail) = none := by
  rw [splitPath, dif_neg hdot]
  split
  · rfl
  · rename_i hcut
    cases h.symm.trans hcut
  · rename_i hcut
    cases h.symm.trans hcut

theorem splitPath_cut_index {index : UInt32} {after : Bytes}
    (h : cutSegment (c :: tail) = some (.index index, after)) :
    splitPath (c :: tail) = (splitPath after).map (.index index :: ·) := by
  rw [splitPath, dif_neg hdot]
  split
  · rename_i hcut
    cases h.symm.trans hcut
  · rename_i hcut
    cases h.symm.trans hcut
    rfl
  · rename_i hcut
    cases h.symm.trans hcut

theorem splitPath_cut_key {segment after : Bytes}
    (h : cutSegment (c :: tail) = some (.key segment, after)) :
    splitPath (c :: tail) =
      if segment.length = 0 then none else (splitPath after).map (.key segment :: ·) := by
  rw [splitPath, dif_neg hdot]
  split
  · rename_i hcut
    cases h.symm.trans hcut
  · rename_i hcut
    cases h.symm.trans hcut
  · rename_i hcut
    cases h.symm.trans hcut
    rfl

theorem resolveLoop_cut_none (offset : UInt64) (resolved : Bool)
    (h : cutSegment (c :: tail) = none) :
    resolveLoop hash64 r offset resolved (c :: tail) = .no := by
  rw [resolveLoop, dif_neg hdot]
  split
  · rfl
  · rename_i hcut
    cases h.symm.trans hcut
  · rename_i hcut
    cases h.symm.trans hcut

theorem resolveLoop_cut_index (offset : UInt64) (resolved : Bool) {index : UInt32} {after : Bytes}
    (h : cutSegment (c :: tail) = some (.index index, after)) :
    resolveLoop hash64 r offset resolved (c :: tail) =
      (stepOffset hash64 r offset resolved (.index index) >>= fun next =>
        resolveLoop hash64 r next true after) := by
  rw [resolveLoop, dif_neg hdot]
  split
  · rename_i hcut
    cases h.symm.trans hcut
  · rename_i hcut
    cases h.symm.trans hcut
    cases resolved with
    | false => rfl
    | true =>
      change _ = (arrayAtOffset r offset index >>= _)
      cases arrayAtOffset r offset index <;> rfl
  · rename_i hcut
    cases h.symm.trans hcut

theorem resolveLoop_cut_key (offset : UInt64) (resolved : Bool) {segment after : Bytes}
    (h : cutSegment (c :: tail) = some (.key segment, after)) :
    resolveLoop hash64 r offset resolved (c :: tail) =
      if segment.length = 0 then .no else
        (stepOffset hash64 r offset resolved (.key segment) >>= fun next =>
          resolveLoop hash64 r next true after) := by
  rw [resolveLoop, dif_neg hdot]
  split
  · rename_i hcut
    cases h.symm.trans hcut
  · rename_i hcut
    cases h.symm.trans hcut
  · rename_i hcut
    cases h.symm.trans hcut
    by_cases hempty : segment.length = 0
    · rw [if_pos hempty, if_pos hempty]
    · rw [if_neg hempty, if_neg hempty]
      cases resolved with
      | false =>
        change _ = (findRootOffset hash64 r segment >>= _)
        simp only [Bool.false_eq_true, if_false]
        cases findRootOffset hash64 r segment <;> rfl
      | true =>
        change _ = (blockFindOffset hash64 r offset segment >>= _)
        simp only [if_true]
        cases blockFindOffset hash64 r offset segment <;> rfl

/-- A turn of the path loop at a byte that is not a dot: it cuts a step off and makes it. -/
theorem turn_cases (offset : UInt64) (resolved : Bool) :
    (splitPath (c :: tail) = none ∧ resolveLoop hash64 r offset resolved (c :: tail) = .no) ∨
      ∃ step after, after.length < (c :: tail).length ∧
        splitPath (c :: tail) = (splitPath after).map (step :: ·) ∧
        resolveLoop hash64 r offset resolved (c :: tail) =
          (stepOffset hash64 r offset resolved step >>= fun next =>
            resolveLoop hash64 r next true after) := by
  cases hcut : cutSegment (c :: tail) with
  | none => exact .inl ⟨splitPath_cut_none hdot hcut, resolveLoop_cut_none hdot _ _ hcut⟩
  | some cut =>
    obtain ⟨segment, after⟩ := cut
    have hshorter := length_cutSegment_lt hdot hcut
    cases segment with
    | index index =>
      exact .inr ⟨.index index, after, hshorter, splitPath_cut_index hdot hcut,
        resolveLoop_cut_index hdot _ _ hcut⟩
    | key segment =>
      have hsplit := splitPath_cut_key hdot hcut
      have hloop : resolveLoop hash64 r offset resolved (c :: tail) = _ :=
        resolveLoop_cut_key hdot offset resolved hcut
      by_cases hempty : segment.length = 0
      · rw [if_pos hempty] at hsplit hloop
        exact .inl ⟨hsplit, hloop⟩
      · rw [if_neg hempty] at hsplit hloop
        exact .inr ⟨.key segment, after, hshorter, hsplit, hloop⟩

end

/-- Below a root, the path loop reads steps and follows them. -/
theorem resolveLoop_below {path : Bytes} {offset found : UInt64} :
    resolveLoop hash64 r offset true path = .ok found ↔
      ∃ steps, splitPath path = some steps ∧ Trail hash64 r offset steps found := by
  -- by induction on the length: a turn of the loop takes a dot or a whole segment
  induction hn : path.length using Nat.strong_induction_on generalizing path offset with
  | _ n ih =>
    cases path with
    | nil =>
      rw [resolveLoop, splitPath]
      simp only [if_true, Outcome.ok.injEq, Option.some.injEq, exists_eq_left', trail_nil]
      exact eq_comm
    | cons c tail =>
      by_cases hdot : c = 0x2E
      · subst hdot
        rw [resolveLoop_dot, splitPath, dif_pos rfl]
        exact ih tail.length (by rw [← hn]; exact Nat.lt_succ_self _) rfl
      · rcases turn_cases hdot offset true with ⟨hsplit, hloop⟩ | ⟨step, after, hlt, hsplit, hloop⟩
        · rw [hsplit, hloop]
          simp only [reduceCtorEq, false_and, exists_false]
        · rw [hsplit, hloop, bind_eq_ok]
          constructor
          · rintro ⟨next, hstep, hrest⟩
            obtain ⟨steps, hsteps, htrail⟩ := (ih after.length (hn ▸ hlt) rfl).mp hrest
            exact ⟨step :: steps, by rw [hsteps]; rfl, .cons hstep htrail⟩
          · rintro ⟨all, hall, htrail⟩
            obtain ⟨steps, hsteps, rfl⟩ := Option.map_eq_some_iff.mp hall
            obtain ⟨next, hstep, hrest⟩ := trail_cons.mp htrail
            exact ⟨next, hstep, (ih after.length (hn ▸ hlt) rfl).mpr ⟨steps, hsteps, hrest⟩⟩

/-- From the start, the first step is a key of the root index. -/
theorem resolveLoop_from_root {path : Bytes} {offset found : UInt64} :
    resolveLoop hash64 r offset false path = .ok found ↔
      ∃ steps, splitPath path = some steps ∧ Leads hash64 r steps found := by
  induction path with
  | nil =>
    rw [resolveLoop, splitPath]
    simp only [Bool.false_eq_true, if_false, reduceCtorEq, Option.some.injEq, exists_eq_left',
      Leads]
  | cons c tail ih =>
    by_cases hdot : c = 0x2E
    · subst hdot
      rw [resolveLoop_dot, splitPath, dif_pos rfl]
      exact ih
    · rcases turn_cases hdot offset false with ⟨hsplit, hloop⟩ | ⟨step, after, -, hsplit, hloop⟩
      · rw [hsplit, hloop]
        simp only [reduceCtorEq, false_and, exists_false]
      · rw [hsplit, hloop, bind_eq_ok]
        simp only [resolveLoop_below]
        constructor
        · rintro ⟨root, hroot, steps, hsteps, htrail⟩
          refine ⟨step :: steps, by rw [hsteps]; rfl, ?_⟩
          cases step with
          | key key => exact ⟨root, hroot, htrail⟩
          | index index => cases hroot
        · rintro ⟨all, hall, hleads⟩
          obtain ⟨steps, hsteps, rfl⟩ := Option.map_eq_some_iff.mp hall
          cases step with
          | key key =>
            obtain ⟨root, hroot, htrail⟩ := hleads
            exact ⟨root, hroot, steps, hsteps, htrail⟩
          | index index => exact hleads.elim

/-- A path resolves to what its steps lead to. -/
theorem resolvePath_eq_ok {path : Bytes} {found : UInt64} :
    resolvePath hash64 r path = .ok found ↔
      ∃ steps, splitPath path = some steps ∧ Leads hash64 r steps found := by
  rw [resolvePath]
  split
  · rename_i hempty
    rw [List.length_eq_zero_iff.mp hempty, splitPath]
    simp only [reduceCtorEq, Option.some.injEq, exists_eq_left', Leads]
  · exact resolveLoop_from_root

theorem find_eq_ok {path : Bytes} {value : ValueRef} :
    find hash64 r path = .ok value ↔ ∃ steps, splitPath path = some steps ∧
      Leads hash64 r steps value.nodeOffset ∧ kindAt r value.nodeOffset = .ok value.kind := by
  rw [find, bind_eq_ok]
  constructor
  · rintro ⟨offset, hpath, hvalue⟩
    obtain ⟨kind, hkind, heq⟩ := bind_eq_ok.mp hvalue
    cases heq
    obtain ⟨steps, hsteps, hleads⟩ := resolvePath_eq_ok.mp hpath
    exact ⟨steps, hsteps, hleads, hkind⟩
  · rintro ⟨steps, hsteps, hleads, hkind⟩
    exact ⟨value.nodeOffset, resolvePath_eq_ok.mpr ⟨steps, hsteps, hleads⟩,
      bind_eq_ok.mpr ⟨value.kind, hkind, rfl⟩⟩

/-! ## Ways through the nodes -/

/-- The offset is in the nodes section, by the sum of the reader. -/
def InNodes (r : Reader) (offset : UInt64) : Prop :=
  r.header.nodesOffset ≤ offset ∧ offset < r.header.nodesOffset + r.header.nodesSize

theorem kindAt_eq_ok {offset : UInt64} {kind : Kind} : kindAt r offset = .ok kind ↔
    InNodes r offset ∧
      ∃ byte, loadByte r.base offset = .ok byte ∧ Kind.ofByte byte = some kind := by
  rw [kindAt, InNodes]
  by_cases hin : offset < r.header.nodesOffset ∨
      offset ≥ r.header.nodesOffset + r.header.nodesSize
  · rw [if_pos hin]
    refine iff_of_false (fun h => by cases h) ?_
    rintro ⟨⟨hge, hlt⟩, -⟩
    rcases hin with hlow | hhigh
    · exact absurd hge (UInt64.not_le.mpr hlow)
    · exact absurd hlt (UInt64.not_lt.mpr hhigh)
  · rw [if_neg hin, bind_eq_ok]
    rw [not_or, UInt64.not_lt, ge_iff_le, UInt64.not_le] at hin
    constructor
    · rintro ⟨byte, hbyte, hkind⟩
      refine ⟨hin, byte, hbyte, ?_⟩
      split at hkind
      · rename_i heq
        cases hkind
        exact heq
      · cases hkind
    · rintro ⟨-, byte, hbyte, hkind⟩
      refine ⟨byte, hbyte, ?_⟩
      rw [hkind]

/-- A step is made where the kind byte is that of its container. -/
theorem loadByte_of_childOffset {offset child : UInt64} {step : Step}
    (h : childOffset hash64 r offset step = .ok child) :
    loadByte r.base offset = .ok step.container.byte := by
  cases step with
  | key key =>
    obtain ⟨body, hbody, -⟩ := bind_eq_ok.mp h
    unfold blockBodyOffsets at hbody
    split at hbody
    · cases hbody
    · obtain ⟨byte, hbyte, hrest⟩ := bind_eq_ok.mp hbody
      split at hrest
      · cases hrest
      · rename_i hkind
        rw [hbyte, not_not.mp hkind]
        rfl
  | index index =>
    obtain ⟨body, hbody, -⟩ := bind_eq_ok.mp h
    unfold arrayBodyOffsets at hbody
    split at hbody
    · cases hbody
    · obtain ⟨byte, hbyte, hrest⟩ := bind_eq_ok.mp hbody
      split at hrest
      · cases hrest
      · rename_i hkind
        rw [hbyte, not_not.mp hkind]
        rfl

/-- A container that a step is made in is found itself if it is in the nodes section. -/
theorem kindAt_container {offset child : UInt64} {step : Step}
    (h : childOffset hash64 r offset step = .ok child) :
    kindAt r offset = .ok step.container ↔ InNodes r offset := by
  rw [kindAt_eq_ok]
  constructor
  · exact fun h => h.1
  · intro hin
    exact ⟨hin, _, loadByte_of_childOffset h, Kind.ofByte_byte _⟩

end

/-! ## A way through a string -/

/-- An array of one element, which the file puts in the middle of a string, and a null at the
offset 256. -/
def detourNodes : Bytes := List.replicate 7 0 ++ loneArray 279 ++ List.replicate 88 0

/-- The text of the second string is that of an array again, from its fourth byte on. -/
def detourStrings : List Bytes := [[0x61], [0, 0, 0] ++ loneArray 256]

section

variable (hash64 : Bytes → UInt64)

/-- The file with the root `a`, the array of the nodes section. -/
def detour : Parts where
  entries := [⟨hash64 [0x61], 264, 1, 159⟩]
  nodes := detourNodes
  strings := detourStrings

theorem detour_sound : (detour hash64).Sound where
  size_lt := by
    change 128 + 1 * 24 + detourNodes.length + (poolBytes detourStrings).length + 32 < 2 ^ 63
    decide +kernel
  sorted := List.pairwise_singleton _ _
  value := by
    intro entry hentry
    rw [List.mem_singleton.mp hentry]
    change 152 ≤ 159 ∧ 159 < 152 + detourNodes.length
    decide +kernel
  key := by
    intro entry hentry
    rw [List.mem_singleton.mp hentry]
    change 152 + detourNodes.length ≤ 264 ∧
      264 + 4 + 1 ≤ 152 + detourNodes.length + (poolBytes detourStrings).length
    decide +kernel
  utf8 := by
    intro s hs
    have hascii : ∀ s ∈ detourStrings, ∀ b ∈ s, b < 128 := by decide +kernel
    exact isUtf8_of_ascii (hascii s hs)
  length_le := (by decide +kernel : ∀ s ∈ detourStrings, s.length ≤ lengthMax)

variable {hash64} {b : Buffer} (hbytes : b.bytes = (detour hash64).file hash64)

include hbytes

/-- The array in the nodes section, the array in the string and the null. -/
theorem detour_hasAt : HasAt b.bytes 159 (loneArray 279) ∧ HasAt b.bytes 279 (loneArray 256) ∧
    HasAt b.bytes 256 [Kind.null.byte] ∧ HasAt b.bytes 268 [0x61] := by
  obtain ⟨-, hnodes, hstrings⟩ := Parts.hasAt hbytes
  have hnodes' : HasAt b.bytes 152 detourNodes := hnodes
  have hstart : (detour hash64).stringsStart = 264 :=
    (by decide +kernel : 152 + detourNodes.length = 264)
  have hstrings' : HasAt b.bytes 264 (poolBytes detourStrings) := by
    rw [hstart] at hstrings
    exact hstrings
  refine ⟨?_, ?_, ?_, ?_⟩
  · exact (by decide +kernel : loneArray 279 <+: detourNodes.drop 7).trans
      (hnodes'.drop 7 (by decide +kernel))
  · exact (by decide +kernel : loneArray 256 <+: (poolBytes detourStrings).drop 15).trans
      (hstrings'.drop 15 (by decide +kernel))
  · exact (by decide +kernel : [Kind.null.byte] <+: detourNodes.drop 104).trans
      (hnodes'.drop 104 (by decide +kernel))
  · exact (by decide +kernel : [0x61] <+: (poolBytes detourStrings).drop 4).trans
      (hstrings'.drop 4 (by decide +kernel))

/-- `a[0]` leads to the array in the string and `a[0][0]` to the null. -/
theorem detour_leads :
    let r : Reader := ⟨b, (detour hash64).header hash64⟩
    Leads hash64 r [.key [0x61]] 159 ∧ Leads hash64 r [.key [0x61], .index 0] 279 ∧
      childOffset hash64 r 279 (.index 0) = .ok 256 ∧ kindAt r 256 = .ok .null ∧
      InNodes r 159 ∧ ¬InNodes r 279 := by
  intro r
  obtain ⟨hfirst, hsecond, hnull, hkey⟩ := detour_hasAt hbytes
  have hroot : findRootOffset hash64 r [0x61] = .ok 159 :=
    (detour_sound hash64).findRootOffset hbytes List.mem_cons_self rfl ⟨rfl, hkey⟩
  have hstep : childOffset hash64 r 159 (.index 0) = .ok 279 :=
    arrayAtOffset_loneArray hfirst (by decide)
  have hsize : (detour hash64).nodes.length = 112 := (by decide +kernel : detourNodes.length = 112)
  have hheader : r.header.nodesOffset = 152 ∧ r.header.nodesSize = 112 :=
    ⟨rfl, congrArg UInt64.ofNat hsize⟩
  refine ⟨⟨159, hroot, .nil⟩, ⟨159, hroot, .cons hstep .nil⟩,
    arrayAtOffset_loneArray hsecond (by decide), ?_, ?_, ?_⟩
  · rw [kindAt_eq_ok, InNodes, hheader.1, hheader.2]
    exact ⟨by decide, _, loadByte_eq_ok.mpr hnull, rfl⟩
  · rw [InNodes, hheader.1, hheader.2]
    decide
  · rw [InNodes, hheader.1, hheader.2]
    decide

end

/-- The texts `a[0]` and `a[0][0]`. -/
theorem detour_paths :
    splitPath [0x61, 0x5B, 0x30, 0x5D] = some [.key [0x61], .index 0] ∧
      splitPath [0x61, 0x5B, 0x30, 0x5D, 0x5B, 0x30, 0x5D] =
        some ([.key [0x61], .index 0] ++ [.index 0]) := by
  have hkey : RendersKey [0x61] [0x61] := ⟨by decide, .inl (by decide)⟩
  have hone : RendersSteps [.index 0] [0x5B, 0x30, 0x5D] := ⟨[], rfl, rfl⟩
  have htwo : RendersSteps [.index 0, .index 0] [0x5B, 0x30, 0x5D, 0x5B, 0x30, 0x5D] :=
    ⟨_, hone, rfl⟩
  constructor
  · exact RendersPath.splitPath ⟨_, _, hkey, hone, rfl⟩
  · exact RendersPath.splitPath ⟨_, _, hkey, htwo, rfl⟩

/-- The path `a[0]` of the array that is in a string is not found, but in it `a[0][0]` is. -/
theorem find_leaves_nodes : ¬∃ hash64 : Bytes → UInt64,
    ∀ (b : Buffer) (r : Reader) (p q : Bytes) (steps : List Step) (step : Step) (value : ValueRef),
      verifyBuffer hash64 b = .ok .ok → openBuffer true b = .ok r → steps ≠ [] →
      splitPath q = some steps → splitPath p = some (steps ++ [step]) →
      find hash64 r p = .ok value →
      ∃ container, find hash64 r q = .ok container ∧ container.kind = step.container := by
  rintro ⟨hash64, hall⟩
  obtain ⟨b, hbytes⟩ : ∃ b : Buffer, b.bytes = (detour hash64).file hash64 :=
    (detour_sound hash64).exists_buffer
  obtain ⟨-, hleads, hchild, hkind, -, hout⟩ := detour_leads hbytes
  obtain ⟨hq, hp⟩ := detour_paths
  have hfound : find hash64 ⟨b, (detour hash64).header hash64⟩ _ = .ok ⟨256, .null⟩ :=
    find_eq_ok.mpr ⟨_, hp, (leads_concat (List.cons_ne_nil _ _)).mpr ⟨279, hleads, hchild⟩, hkind⟩
  obtain ⟨container, hcontainer, -⟩ := hall b _ _ _ _ _ _
    ((detour_sound hash64).verified hbytes) (Parts.opened hbytes) (List.cons_ne_nil _ _) hq hp
    hfound
  obtain ⟨steps, hsteps, hleads', hkind'⟩ := find_eq_ok.mp hcontainer
  cases hq.symm.trans hsteps
  rw [← hleads.unique hleads'] at hkind'
  exact hout (kindAt_eq_ok.mp hkind').1

end Hrbl
