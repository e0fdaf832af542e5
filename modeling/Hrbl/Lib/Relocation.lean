import Hrbl.Lib.Bytes

/-!
# Relocatable images

An image is a list of chunks: bytes that are known, and words of 32 bits that stand for
the address of a target. Rendered with addresses that are relative to something, it
becomes the image with absolute ones when the same number is added to every word, in
whatever order.
-/

namespace Lib

variable {κ : Type}

/-- A piece of an image. -/
inductive Chunk (κ : Type) where
  | raw (bytes : List UInt8)
  | ref (target : κ)
deriving Repr, DecidableEq

/-- How many bytes a chunk takes. -/
def Chunk.width : Chunk κ → Nat
  | .raw bytes => bytes.length
  | .ref _ => 4

/-- How many bytes an image takes. -/
def imageWidth (chunks : List (Chunk κ)) : Nat := (chunks.map Chunk.width).sum

/-- Where the references are in an image that starts at `offset`. -/
def refOffsets (offset : Nat) : List (Chunk κ) → List Nat
  | [] => []
  | .raw bytes :: chunks => refOffsets (offset + bytes.length) chunks
  | .ref _ :: chunks => offset :: refOffsets (offset + 4) chunks

/-- What an image refers to. -/
def refTargets : List (Chunk κ) → List κ
  | [] => []
  | .raw _ :: chunks => refTargets chunks
  | .ref target :: chunks => target :: refTargets chunks

/-- Where the references are, and what each of them refers to. -/
def references (offset : Nat) : List (Chunk κ) → List (Nat × κ)
  | [] => []
  | .raw bytes :: chunks => references (offset + bytes.length) chunks
  | .ref target :: chunks => (offset, target) :: references (offset + 4) chunks

/-- The bytes of an image at `offset`, when the address of a target may depend on the
place of the reference. -/
def renderAt (addr : Nat → κ → UInt32) (offset : Nat) : List (Chunk κ) → List UInt8
  | [] => []
  | .raw bytes :: chunks => bytes ++ renderAt addr (offset + bytes.length) chunks
  | .ref target :: chunks =>
    leBytes 4 (addr offset target).toNat ++ renderAt addr (offset + 4) chunks

/-- The bytes of an image. -/
def render (addr : κ → UInt32) : List (Chunk κ) → List UInt8
  | [] => []
  | .raw bytes :: chunks => bytes ++ render addr chunks
  | .ref target :: chunks => leBytes 4 (addr target).toNat ++ render addr chunks

/-! ## Composition -/

@[simp] theorem imageWidth_nil : imageWidth ([] : List (Chunk κ)) = 0 := rfl

@[simp] theorem imageWidth_cons (c : Chunk κ) (chunks : List (Chunk κ)) :
    imageWidth (c :: chunks) = c.width + imageWidth chunks := rfl

@[simp] theorem imageWidth_append (chunks more : List (Chunk κ)) :
    imageWidth (chunks ++ more) = imageWidth chunks + imageWidth more := by
  rw [imageWidth, List.map_append, List.sum_append, imageWidth, imageWidth]

@[simp] theorem render_append (addr : κ → UInt32) (chunks more : List (Chunk κ)) :
    render addr (chunks ++ more) = render addr chunks ++ render addr more := by
  induction chunks with
  | nil => rfl
  | cons c chunks ih => cases c <;> simp only [List.cons_append, render, ih, List.append_assoc]

@[simp] theorem refTargets_append (chunks more : List (Chunk κ)) :
    refTargets (chunks ++ more) = refTargets chunks ++ refTargets more := by
  induction chunks with
  | nil => rfl
  | cons c chunks ih => cases c <;> simp only [List.cons_append, refTargets, ih]

@[simp] theorem refOffsets_append (offset : Nat) (chunks more : List (Chunk κ)) :
    refOffsets offset (chunks ++ more) =
      refOffsets offset chunks ++ refOffsets (offset + imageWidth chunks) more := by
  induction chunks generalizing offset with
  | nil => rfl
  | cons c chunks ih =>
    cases c <;>
      simp only [List.cons_append, refOffsets, ih, imageWidth_cons, Chunk.width, Nat.add_assoc]

@[simp] theorem references_append (offset : Nat) (chunks more : List (Chunk κ)) :
    references offset (chunks ++ more) =
      references offset chunks ++ references (offset + imageWidth chunks) more := by
  induction chunks generalizing offset with
  | nil => rfl
  | cons c chunks ih =>
    cases c <;>
      simp only [List.cons_append, references, ih, imageWidth_cons, Chunk.width, Nat.add_assoc]

theorem references_fst (offset : Nat) (chunks : List (Chunk κ)) :
    (references offset chunks).map Prod.fst = refOffsets offset chunks := by
  induction chunks generalizing offset with
  | nil => rfl
  | cons c chunks ih => cases c <;> simp only [references, refOffsets, List.map_cons, ih]

theorem references_snd (offset : Nat) (chunks : List (Chunk κ)) :
    (references offset chunks).map Prod.snd = refTargets chunks := by
  induction chunks generalizing offset with
  | nil => rfl
  | cons c chunks ih => cases c <;> simp only [references, refTargets, List.map_cons, ih]

@[simp] theorem length_render (addr : κ → UInt32) (chunks : List (Chunk κ)) :
    (render addr chunks).length = imageWidth chunks := by
  induction chunks with
  | nil => rfl
  | cons c chunks ih =>
    cases c <;>
      simp only [render, List.length_append, length_leBytes, ih, imageWidth_cons, Chunk.width]

/-- Only the addresses of what is referred to matter, at the places where it is. -/
theorem renderAt_eq_render {addr : Nat → κ → UInt32} {addr' : κ → UInt32} {offset : Nat}
    {chunks : List (Chunk κ)}
    (h : ∀ i ∈ refOffsets offset chunks, ∀ k ∈ refTargets chunks, addr i k = addr' k) :
    renderAt addr offset chunks = render addr' chunks := by
  induction chunks generalizing offset with
  | nil => rfl
  | cons c chunks ih =>
    cases c with
    | raw bytes => rw [renderAt, render, ih h]
    | ref target =>
      have htail : renderAt addr (offset + 4) chunks = render addr' chunks :=
        ih fun i hi k hk => h i (List.mem_cons_of_mem _ hi) k (List.mem_cons_of_mem _ hk)
      rw [renderAt, render, h offset List.mem_cons_self target List.mem_cons_self, htail]

theorem render_congr {addr addr' : κ → UInt32} {chunks : List (Chunk κ)}
    (h : ∀ k ∈ refTargets chunks, addr k = addr' k) : render addr chunks = render addr' chunks := by
  have heq : renderAt (fun _ => addr) 0 chunks = render addr' chunks :=
    renderAt_eq_render fun _ _ => h
  have hself : renderAt (fun _ => addr) 0 chunks = render addr chunks :=
    renderAt_eq_render fun _ _ _ _ => rfl
  rw [← heq, hself]

theorem le_of_mem_refOffsets {offset i : Nat} {chunks : List (Chunk κ)}
    (h : i ∈ refOffsets offset chunks) : offset ≤ i := by
  induction chunks generalizing offset with
  | nil => cases h
  | cons c chunks ih =>
    cases c with
    | raw bytes => exact Nat.le_trans (Nat.le_add_right _ _) (ih h)
    | ref target =>
      rcases List.mem_cons.mp h with rfl | h
      · exact Nat.le_refl _
      · exact Nat.le_trans (Nat.le_add_right _ _) (ih h)

theorem refOffsets_nodup (offset : Nat) (chunks : List (Chunk κ)) :
    (refOffsets offset chunks).Nodup := by
  induction chunks generalizing offset with
  | nil => exact List.nodup_nil
  | cons c chunks ih =>
    cases c with
    | raw bytes => exact ih _
    | ref target =>
      refine List.nodup_cons.mpr ⟨fun hmem => ?_, ih _⟩
      have hle := le_of_mem_refOffsets hmem
      omega

/-- A reference is inside of its image. -/
theorem refOffsets_inside {offset i : Nat} {chunks : List (Chunk κ)}
    (h : i ∈ refOffsets offset chunks) : i + 4 ≤ offset + imageWidth chunks := by
  induction chunks generalizing offset with
  | nil => cases h
  | cons c chunks ih =>
    rw [imageWidth_cons]
    cases c with
    | raw bytes =>
      have hrest := ih h
      rw [Chunk.width]
      omega
    | ref target =>
      rw [Chunk.width]
      rcases List.mem_cons.mp h with rfl | h
      · omega
      · have hrest := ih h
        omega

/-- A reference is rendered as the address of what it refers to. -/
theorem hasAt_reference (addr : κ → UInt32) {i : Nat} {k : κ} {chunks : List (Chunk κ)}
    (pre post : List UInt8) (h : (i, k) ∈ references pre.length chunks) :
    HasAt (pre ++ render addr chunks ++ post) i (leBytes 4 (addr k).toNat) := by
  induction chunks generalizing pre with
  | nil => cases h
  | cons c chunks ih =>
    cases c with
    | raw bytes =>
      rw [references, ← List.length_append] at h
      rw [render, ← List.append_assoc]
      exact ih _ h
    | ref target =>
      rw [render]
      rcases List.mem_cons.mp h with heq | h
      · cases heq
        have hat := HasAt.intro pre (leBytes 4 (addr k).toNat) (render addr chunks ++ post)
        simpa only [List.append_assoc] using hat
      · have hlen : (pre ++ leBytes 4 (addr target).toNat).length = pre.length + 4 := by
          rw [List.length_append, length_leBytes]
        rw [← hlen] at h
        rw [← List.append_assoc]
        exact ih _ h

/-- Between its references an image is rendered to the same bytes, whatever the addresses. -/
theorem getElem?_render_congr (addr addr' : κ → UInt32) (offset : Nat) {j : Nat}
    {chunks : List (Chunk κ)}
    (h : ∀ i ∈ refOffsets offset chunks, offset + j < i ∨ i + 4 ≤ offset + j) :
    (render addr chunks)[j]? = (render addr' chunks)[j]? := by
  induction chunks generalizing offset j with
  | nil => rfl
  | cons c chunks ih =>
    cases c with
    | raw bytes =>
      rw [render, render]
      by_cases hj : j < bytes.length
      · rw [List.getElem?_append_left hj, List.getElem?_append_left hj]
      · have hle := Nat.not_lt.mp hj
        rw [List.getElem?_append_right hle, List.getElem?_append_right hle]
        refine ih (offset + bytes.length) fun i hi => ?_
        have hplace := h i hi
        omega
    | ref target =>
      have hplace := h offset List.mem_cons_self
      have hle : ∀ word : UInt32, (leBytes 4 word.toNat).length ≤ j := by
        intro word
        rw [length_leBytes]
        omega
      rw [render, render, List.getElem?_append_right (hle _), List.getElem?_append_right (hle _),
        length_leBytes, length_leBytes]
      refine ih (offset + 4) fun i hi => ?_
      have hrest := h i (List.mem_cons_of_mem _ hi)
      have hfour := hle 0
      rw [length_leBytes] at hfour
      omega

/-! ## Relocation -/

/-- A number added to the word at a place; `none` when there is no word. -/
def addWordAt (delta : UInt32) (data : List UInt8) (offset : Nat) : Option (List UInt8) := do
  let raw ← fetch data offset 4
  return overwrite data offset (leBytes 4 (UInt32.ofNat (leNat raw) + delta).toNat)

/-- What an addition does with the bytes of the word and with all others. -/
theorem addWordAt_spec {delta : UInt32} {data data' : List UInt8} {offset : Nat}
    (h : addWordAt delta data offset = some data') :
    offset + 4 ≤ data.length ∧ data'.length = data.length ∧
      (∀ word : UInt32, HasAt data offset (leBytes 4 word.toNat) →
        HasAt data' offset (leBytes 4 (word + delta).toNat)) ∧
      ∀ i xs, i + xs.length ≤ offset ∨ offset + 4 ≤ i → HasAt data i xs → HasAt data' i xs := by
  obtain ⟨raw, hfetch, hdata⟩ := Option.bind_eq_some_iff.mp h
  cases hdata
  obtain ⟨hle, -⟩ := fetch_eq_some.mp hfetch
  have hin : ∀ n, offset + (leBytes 4 n).length ≤ data.length := by
    intro n
    rwa [length_leBytes]
  refine ⟨hle, length_overwrite (hin _), ?_, ?_⟩
  · intro word hat
    have hword := hat.fetch (hin _)
    rw [length_leBytes] at hword
    cases hfetch.symm.trans hword
    rw [leNat_leBytes_of_lt word.toNat_lt, UInt32.ofNat_toNat]
    exact hasAt_overwrite_self (hin _)
  · intro i xs hapart hat
    refine hat.overwrite (hin _) ?_
    rwa [length_leBytes]

/-- Bytes apart from all of the words stay. -/
theorem foldlM_addWordAt_apart {delta : UInt32} {offsets : List Nat} {data data' : List UInt8}
    (h : offsets.foldlM (addWordAt delta) data = some data') {i : Nat} {xs : List UInt8}
    (hapart : ∀ j ∈ offsets, i + xs.length ≤ j ∨ j + 4 ≤ i) (hat : HasAt data i xs) :
    HasAt data' i xs := by
  induction offsets generalizing data with
  | nil =>
    cases h
    exact hat
  | cons offset offsets ih =>
    obtain ⟨data₁, hfirst, hrest⟩ := Option.bind_eq_some_iff.mp h
    obtain ⟨-, -, -, hkeeps⟩ := addWordAt_spec hfirst
    exact ih hrest (fun j hj => hapart j (List.mem_cons_of_mem _ hj))
      (hkeeps i xs (hapart offset List.mem_cons_self) hat)

/-- A word that is apart from the others grows by the number, once. -/
theorem foldlM_addWordAt_word {delta : UInt32} {offsets : List Nat} {data data' : List UInt8}
    (h : offsets.foldlM (addWordAt delta) data = some data') {i : Nat} {word : UInt32}
    (hi : i ∈ offsets) (hnodup : offsets.Nodup)
    (hapart : ∀ j ∈ offsets, j ≠ i → i + 4 ≤ j ∨ j + 4 ≤ i)
    (hat : HasAt data i (leBytes 4 word.toNat)) :
    HasAt data' i (leBytes 4 (word + delta).toNat) := by
  induction offsets generalizing data with
  | nil => cases hi
  | cons offset offsets ih =>
    obtain ⟨data₁, hfirst, hrest⟩ := Option.bind_eq_some_iff.mp h
    obtain ⟨-, -, hgrows, hkeeps⟩ := addWordAt_spec hfirst
    obtain ⟨hnot, hnodup⟩ := List.nodup_cons.mp hnodup
    have hothers : ∀ j ∈ offsets, j ≠ i → i + 4 ≤ j ∨ j + 4 ≤ i :=
      fun j hj => hapart j (List.mem_cons_of_mem _ hj)
    by_cases hsame : offset = i
    · subst hsame
      refine foldlM_addWordAt_apart hrest (fun j hj => ?_) (hgrows word hat)
      rw [length_leBytes]
      exact hothers j hj fun heq => hnot (heq ▸ hj)
    · have hmem := (List.mem_cons.mp hi).resolve_left (Ne.symm hsame)
      refine ih hrest hmem hnodup hothers (hkeeps i _ ?_ hat)
      rw [length_leBytes]
      exact hapart offset List.mem_cons_self hsame

theorem length_foldlM_addWordAt {delta : UInt32} {offsets : List Nat} {data data' : List UInt8}
    (h : offsets.foldlM (addWordAt delta) data = some data') : data'.length = data.length := by
  induction offsets generalizing data with
  | nil =>
    cases h
    rfl
  | cons offset offsets ih =>
    obtain ⟨data₁, hfirst, hrest⟩ := Option.bind_eq_some_iff.mp h
    obtain ⟨-, hlength, -, -⟩ := addWordAt_spec hfirst
    exact (ih hrest).trans hlength

/-- Words inside can be added to. -/
theorem foldlM_addWordAt_isSome (delta : UInt32) {offsets : List Nat} {data : List UInt8}
    (h : ∀ i ∈ offsets, i + 4 ≤ data.length) :
    ∃ data', offsets.foldlM (addWordAt delta) data = some data' ∧ data'.length = data.length := by
  induction offsets generalizing data with
  | nil => exact ⟨data, rfl, rfl⟩
  | cons offset offsets ih =>
    have hle := h offset List.mem_cons_self
    have hfirst : addWordAt delta data offset = some (overwrite data offset (leBytes 4
        (UInt32.ofNat (leNat ((data.drop offset).take 4)) + delta).toNat)) := by
      rw [addWordAt, fetch_eq_some.mpr ⟨hle, rfl⟩]
      rfl
    obtain ⟨-, hlength, -, -⟩ := addWordAt_spec hfirst
    obtain ⟨data', hrest, hlength'⟩ := ih fun i hi => hlength ▸ h i (List.mem_cons_of_mem _ hi)
    refine ⟨data', ?_, hlength'.trans hlength⟩
    rw [List.foldlM_cons, hfirst]
    exact hrest

/-- A number added to the word between two parts. -/
theorem addWordAt_append (delta word : UInt32) (pre post : List UInt8) :
    addWordAt delta (pre ++ leBytes 4 word.toNat ++ post) pre.length =
      some (pre ++ leBytes 4 (word + delta).toNat ++ post) := by
  have hat := HasAt.intro pre (leBytes 4 word.toNat) post
  have hfetch := hat.fetch (by simp only [List.length_append]; omega)
  rw [length_leBytes] at hfetch
  have hword : UInt32.ofNat (leNat (leBytes 4 word.toNat)) = word := by
    rw [leNat_leBytes_of_lt word.toNat_lt, UInt32.ofNat_toNat]
  simp only [addWordAt, hfetch, bind, Option.bind, hword, pure]
  rw [overwrite_append _ _ _ _ (by rw [length_leBytes, length_leBytes])]

/-- The addresses of an image after a number has been added to the word at a place. -/
def shiftAt (addr : Nat → κ → UInt32) (delta : UInt32) (i : Nat) : Nat → κ → UInt32 :=
  fun j k => if j = i then addr j k + delta else addr j k

theorem renderAt_shiftAt_of_lt {addr : Nat → κ → UInt32} {delta : UInt32} {i offset : Nat}
    {chunks : List (Chunk κ)} (h : i < offset) :
    renderAt (shiftAt addr delta i) offset chunks = renderAt addr offset chunks := by
  induction chunks generalizing offset with
  | nil => rfl
  | cons c chunks ih =>
    cases c with
    | raw bytes => rw [renderAt, renderAt, ih (by omega)]
    | ref target =>
      rw [renderAt, renderAt, ih (by omega), shiftAt, if_neg (by omega)]

/-- One word of an image changes. -/
theorem addWordAt_renderAt (addr : Nat → κ → UInt32) (delta : UInt32) {i : Nat}
    {chunks : List (Chunk κ)} {pre : List UInt8} (post : List UInt8)
    (hi : i ∈ refOffsets pre.length chunks) :
    addWordAt delta (pre ++ renderAt addr pre.length chunks ++ post) i =
      some (pre ++ renderAt (shiftAt addr delta i) pre.length chunks ++ post) := by
  induction chunks generalizing pre with
  | nil => cases hi
  | cons c chunks ih =>
    cases c with
    | raw bytes =>
      rw [refOffsets, ← List.length_append] at hi
      have htail := ih hi
      simp only [renderAt, List.append_assoc, List.length_append] at htail ⊢
      exact htail
    | ref target =>
      rcases List.mem_cons.mp hi with rfl | hi
      · have hword := addWordAt_append delta (addr pre.length target) pre
          (renderAt addr (pre.length + 4) chunks ++ post)
        have hrest : renderAt (shiftAt addr delta pre.length) (pre.length + 4) chunks =
            renderAt addr (pre.length + 4) chunks := renderAt_shiftAt_of_lt (by omega)
        have hself : shiftAt addr delta pre.length pre.length target =
            addr pre.length target + delta := if_pos rfl
        simp only [renderAt, hrest, hself, List.append_assoc] at hword ⊢
        exact hword
      · have hne : pre.length ≠ i := by
          have hle := le_of_mem_refOffsets hi
          omega
        have hlen : (pre ++ leBytes 4 (addr pre.length target).toNat).length = pre.length + 4 := by
          rw [List.length_append, length_leBytes]
        have hi' : i ∈
            refOffsets (pre ++ leBytes 4 (addr pre.length target).toNat).length chunks := by
          rwa [hlen]
        have htail := ih hi'
        simp only [renderAt, hlen, List.append_assoc, shiftAt, if_neg hne] at htail ⊢
        exact htail

/-- Every word of an image changes, whatever the order. -/
theorem foldlM_addWordAt (addr : κ → UInt32) (delta : UInt32) {offsets : List Nat}
    {chunks : List (Chunk κ)} (pre post : List UInt8)
    (h : offsets.Perm (refOffsets pre.length chunks)) :
    offsets.foldlM (addWordAt delta) (pre ++ render addr chunks ++ post) =
      some (pre ++ render (fun k => addr k + delta) chunks ++ post) := by
  have hrun : ∀ (offsets : List Nat) (addr : Nat → κ → UInt32), offsets.Nodup →
      (∀ i ∈ offsets, i ∈ refOffsets pre.length chunks) →
      offsets.foldlM (addWordAt delta) (pre ++ renderAt addr pre.length chunks ++ post) =
        some (pre ++ renderAt (fun i k => if i ∈ offsets then addr i k + delta else addr i k)
          pre.length chunks ++ post) := by
    intro offsets
    induction offsets with
    | nil =>
      intro addr _ _
      simp
    | cons i offsets ih =>
      intro addr hnodup hmem
      obtain ⟨hi, hnodup⟩ := List.nodup_cons.mp hnodup
      rw [List.foldlM_cons, addWordAt_renderAt addr delta post (hmem i List.mem_cons_self)]
      simp only [bind, Option.bind]
      rw [ih _ hnodup fun j hj => hmem j (List.mem_cons_of_mem _ hj)]
      congr 4
      funext j k
      by_cases hj : j = i
      · subst hj
        simp only [hi, shiftAt, if_true, if_false, List.mem_cons_self]
      · simp only [shiftAt, List.mem_cons, hj, false_or, if_false]
  have hstart : renderAt (fun _ => addr) pre.length chunks = render addr chunks :=
    renderAt_eq_render fun _ _ _ _ => rfl
  have hend : renderAt (fun i k => if i ∈ offsets then addr k + delta else addr k) pre.length
      chunks = render (fun k => addr k + delta) chunks :=
    renderAt_eq_render fun i hi k _ => if_pos (h.mem_iff.mpr hi)
  rw [← hstart, hrun offsets _ (h.nodup_iff.mpr (refOffsets_nodup _ _)) fun i hi => h.mem_iff.mp hi,
    hend]

end Lib
