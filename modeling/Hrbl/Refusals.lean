import Hrbl.IniReading
import Hrbl.Truncating

/-!
# Refused calls

What a returned `true` says about the calls that were refused and about the text that was written.
The JSON exporter returns it only where nothing was refused, behind the text of every run in which
less is refused. The INI exporter is not marked where a `double` is not formatted, and goes on behind
it, so that its `true` is about documents whose doubles are formatted.
-/

namespace Hrbl

open Lib Lib.Outcome

variable {σ : Type}

/-! ## What is recorded -/

/-- How many calls have been refused: `double`s that were not formatted, writes and other
formatters, and allocations. -/
structure Refusals where
  doubles : Nat
  calls : Nat
  allocations : Nat
deriving Repr, DecidableEq

def Refusals.double (ρ : Refusals) : Refusals := { ρ with doubles := ρ.doubles + 1 }

def Refusals.call (ρ : Refusals) : Refusals := { ρ with calls := ρ.calls + 1 }

def Refusals.allocation (ρ : Refusals) : Refusals := { ρ with allocations := ρ.allocations + 1 }

/-- The world knows which of these calls it has refused. -/
def RecordsCall {α : Type} (refusals : σ → Refusals) (served : α → Bool)
    (refused : Refusals → Refusals) (call : σ → α × σ) : Prop := ∀ world,
  refusals (call world).2 =
    if served (call world).1 then refusals world else refused (refusals world)

/-- The world knows which calls it has refused. -/
structure Core.Records (core : Core σ) (refusals : σ → Refusals) : Prop where
  writeBytes : ∀ data, RecordsCall refusals id Refusals.call (core.writeBytes data)
  allocate : ∀ bytes, RecordsCall refusals id Refusals.allocation (core.allocate bytes)
  formatSigned : ∀ size value,
    RecordsCall refusals Option.isSome Refusals.call (core.formatSigned size value)
  formatUnsigned : ∀ size value,
    RecordsCall refusals Option.isSome Refusals.call (core.formatUnsigned size value)
  formatHexadecimal : ∀ size value width,
    RecordsCall refusals Option.isSome Refusals.call (core.formatHexadecimal size value width)
  formatDouble : ∀ size bits,
    RecordsCall refusals Option.isSome Refusals.double (core.formatDouble size bits)

/-- A call with a record of its refusals. -/
def watchCall {α : Type} (served : α → Bool) (refused : Refusals → Refusals) (call : σ → α × σ)
    (world : σ × Refusals) : α × (σ × Refusals) :=
  ((call world.1).1, (call world.1).2,
    if served (call world.1).1 then world.2 else refused world.2)

/-- The same calls in a world with a record. -/
def Core.watched (core : Core σ) : Core (σ × Refusals) where
  writeBytes data := watchCall id Refusals.call (core.writeBytes data)
  allocate bytes := watchCall id Refusals.allocation (core.allocate bytes)
  formatSigned size value := watchCall Option.isSome Refusals.call (core.formatSigned size value)
  formatUnsigned size value :=
    watchCall Option.isSome Refusals.call (core.formatUnsigned size value)
  formatHexadecimal size value width :=
    watchCall Option.isSome Refusals.call (core.formatHexadecimal size value width)
  formatDouble size bits := watchCall Option.isSome Refusals.double (core.formatDouble size bits)
  sortWithCompare := core.sortWithCompare

theorem watched_records (core : Core σ) : core.watched.Records Prod.snd where
  writeBytes _ _ := rfl
  allocate _ _ := rfl
  formatSigned _ _ _ := rfl
  formatUnsigned _ _ _ := rfl
  formatHexadecimal _ _ _ _ := rfl
  formatDouble _ _ _ := rfl

/-- The second core is the first but for calls that it refuses. -/
structure RefusesMore (core core' : Core σ) : Prop where
  writeBytes : ∀ data world, core'.writeBytes data world = core.writeBytes data world ∨
    (core'.writeBytes data world).1 = false
  allocate : ∀ bytes world, core'.allocate bytes world = core.allocate bytes world ∨
    (core'.allocate bytes world).1 = false
  formatSigned : ∀ size value world,
    core'.formatSigned size value world = core.formatSigned size value world ∨
      (core'.formatSigned size value world).1 = none
  formatUnsigned : ∀ size value world,
    core'.formatUnsigned size value world = core.formatUnsigned size value world ∨
      (core'.formatUnsigned size value world).1 = none
  formatHexadecimal : ∀ size value width world,
    core'.formatHexadecimal size value width world = core.formatHexadecimal size value width world ∨
      (core'.formatHexadecimal size value width world).1 = none
  formatDouble : ∀ size bits world,
    core'.formatDouble size bits world = core.formatDouble size bits world ∨
      (core'.formatDouble size bits world).1 = none
  sorts : ∀ {α : Type} (less : α → α → Bool) (entries : List α),
    core'.sortWithCompare less entries = core.sortWithCompare less entries

/-- The export returns `true` only if no write and no formatter has been refused, and only where
everything has been written. -/
def SucceedsWhole (refusals : σ → Refusals) (complete : σ → Prop) (world : σ)
    (result : Except ExportStop Bool × σ) : Prop :=
  result.1 = .ok true → (refusals result.2).calls = (refusals world).calls ∧
    (refusals result.2).doubles = (refusals world).doubles ∧ complete result.2

/-- The JSON export ends so with every core that refuses less. -/
def JsonComplete (core : Core σ) (levels : Nat) (r : Reader) (how : Option ExportOptions)
    (world world' : σ) : Prop :=
  ∀ whole, RefusesMore whole core → exportJsonEx whole levels r how world = (.ok true, world')

/-- All lines of the document have been written, with the members of its blocks in some order. -/
def IniComplete (core : Core σ) (output : σ → Bytes) (document : Document) (world world' : σ) :
    Prop :=
  membersFlat document = true ∧ ∃ text document', output world' = output world ++ text ∧
    RearrangedDocument List.Perm document document' ∧
    AreIniLines core (documentLines document') text

/-- What is refused is refused earlier. -/
theorem RefusesMore.failsEarlier {core core' : Core σ} (h : RefusesMore core core') :
    FailsEarlier (fun _ => []) core core' := by
  have hformats : ∀ {call call' : σ → Option Bytes × σ},
      (∀ world, call' world = call world ∨ (call' world).1 = none) →
        FormatsEarlier (fun _ => []) call call' := fun hcall =>
    ⟨fun _ => rfl, fun world => (hcall world).imp_right fun hnone =>
      ⟨_, Prod.ext hnone rfl, rfl⟩⟩
  constructor
  · exact fun _ _ => List.prefix_rfl
  · exact fun data world => (h.writeBytes data world).imp_right fun hfalse =>
      ⟨_, Prod.ext hfalse rfl, List.prefix_rfl, List.prefix_rfl⟩
  · exact fun _ _ => rfl
  · exact fun bytes world => (h.allocate bytes world).imp_right fun hfalse =>
      ⟨_, Prod.ext hfalse rfl, rfl⟩
  · exact fun size value => hformats (h.formatSigned size value)
  · exact fun size value => hformats (h.formatUnsigned size value)
  · exact fun size value width => hformats (h.formatHexadecimal size value width)
  · exact fun size bits => hformats (h.formatDouble size bits)
  · exact h.sorts

/-! ## Invariants -/

section

variable {core : Core σ} {refusals : σ → Refusals} {I : ExportState σ → Prop}
  {E : ExportStop → ExportState σ → Prop}

/-- Where a call is recorded, what it keeps follows from what the record says. -/
theorem RecordsCall.served {α : Type} {served : α → Bool} {P : α → Prop}
    {refused : Refusals → Refusals} {call : σ → α × σ}
    (h : RecordsCall refusals served refused call) (hserved : ∀ a, P a ↔ served a = true)
    (hkeep : ∀ s world', I s → refusals world' = refusals s.world → I { s with world := world' })
    (hstop : ∀ s world', I s → refusals world' = refused (refusals s.world) →
      E .failed { world := world', writeFailed := true }) : Served I E P call := by
  intro s hs
  have hrecord := h s.world
  constructor
  · intro hP
    rw [if_pos ((hserved _).mp hP)] at hrecord
    exact hkeep s _ hs hrecord
  · intro hP
    rw [if_neg (mt (hserved _).mpr hP)] at hrecord
    exact hstop s _ hs hrecord

theorem ne_none_iff_isSome {α : Type} (o : Option α) : o ≠ none ↔ o.isSome = true :=
  Option.isSome_iff_ne_none.symm

theorem Core.Records.keeps (hcore : core.Records refusals)
    (hmarked : ∀ s, I s → s.writeFailed = true → E .failed s)
    (hkeep : ∀ s world', I s → refusals world' = refusals s.world → I { s with world := world' })
    (hcall : ∀ s world', I s → refusals world' = (refusals s.world).call →
      E .failed { world := world', writeFailed := true })
    (hallocation : ∀ s world', I s → refusals world' = (refusals s.world).allocation →
      E .failed { world := world', writeFailed := true }) : core.Keeps I E where
  marked := hmarked
  writeBytes data := (hcore.writeBytes data).served (fun _ => .rfl) hkeep hcall
  allocate bytes := (hcore.allocate bytes).served (fun _ => .rfl) hkeep hallocation
  formatSigned size value :=
    (hcore.formatSigned size value).served ne_none_iff_isSome hkeep hcall
  formatUnsigned size value :=
    (hcore.formatUnsigned size value).served ne_none_iff_isSome hkeep hcall
  formatHexadecimal size value width :=
    (hcore.formatHexadecimal size value width).served ne_none_iff_isSome hkeep hcall

/-- The array for the entries of the root, without a mark where it is refused. -/
theorem Core.Records.rootAlloc (hcore : core.Records refusals)
    (hkeep : ∀ s world', I s → refusals world' = refusals s.world → I { s with world := world' })
    (hallocation : ∀ s world', I s → refusals world' = (refusals s.world).allocation →
      E .failed { s with world := world' }) (bytes : Nat) :
    Lib.Keeps I E (scratchAlloc core bytes (throw .failed)) := by
  intro s hs
  rw [scratchAlloc, callCore_bind]
  have hrecord := hcore.allocate bytes s.world
  cases hresult : (core.allocate bytes s.world).1 with
  | true =>
    rw [hresult] at hrecord
    refine ⟨fun a s' hok => ?_, fun e s' hstop => ?_⟩
    · cases hok
      exact hkeep s _ hs hrecord
    · cases hstop
  | false =>
    rw [hresult] at hrecord
    refine ⟨fun a s' hok => ?_, fun e s' hstop => ?_⟩
    · cases hok
    · cases hstop
      exact hallocation s _ hs hrecord

/-- Where a `double` is recorded, and the INI exporter stops without a mark. -/
theorem Core.Records.keepsIni (hcore : core.Records refusals) (h : core.Keeps I E)
    (hstop : ∀ s, I s → E .failed s)
    (hkeep : ∀ s world', I s → refusals world' = refusals s.world → I { s with world := world' })
    (hdouble : ∀ s world', I s → refusals world' = (refusals s.world).double →
      E .failed { s with world := world' }) : core.KeepsIni I E where
  toKeeps := h
  stop := hstop
  formatDouble size bits s hs := by
    have hrecord := hcore.formatDouble size bits s.world
    constructor
    · intro hsome
      rw [if_pos ((ne_none_iff_isSome _).mp hsome)] at hrecord
      exact hkeep s _ hs hrecord
    · intro hnone
      rw [hnone] at hrecord
      exact hdouble s _ hs hrecord

/-! ## JSON -/

/-- The JSON exporter returns only where nothing has been refused. -/
theorem exportJsonEx_whole (hcore : core.Records refusals) (levels : Nat) (r : Reader)
    (how : Option ExportOptions) (world : σ)
    (htrue : (exportJsonEx core levels r how world).1 = .ok true) :
    refusals (exportJsonEx core levels r how world).2 = refusals world := by
  let I : ExportState σ → Prop := fun s => refusals s.world = refusals world
  let E : ExportStop → ExportState σ → Prop := fun _ _ => True
  have hkeep : ∀ s world', I s → refusals world' = refusals s.world →
      I { s with world := world' } := fun s world' hs hsame => hsame.trans hs
  have hkeeps : core.KeepsJson I E :=
    { toKeeps := hcore.keeps (fun _ _ _ => trivial) hkeep (fun _ _ _ _ => trivial)
        fun _ _ _ _ => trivial
      formatDouble := fun size bits => (hcore.formatDouble size bits).served ne_none_iff_isSome
        hkeep fun _ _ _ _ => trivial }
  have halloc : ∀ bytes, Keeps I E (scratchAlloc core bytes (throw .failed)) :=
    hcore.rootAlloc hkeep fun _ _ _ _ => trivial
  have hroots := Keeps.exportRoots hkeeps ⟨fun _ _ => trivial, fun _ _ => trivial⟩
    (fun _ _ => trivial) how r levels halloc
  obtain ⟨s, hrun, -, hend⟩ := exportEnd_eq_true htrue
  rw [exportJsonEx, hend]
  exact (hroots _ rfl).1 _ s hrun

/-- What it has written then is what it writes where less is refused. -/
theorem exportJsonEx_complete (levels : Nat) (r : Reader) (how : Option ExportOptions) (world : σ)
    (htrue : (exportJsonEx core levels r how world).1 = .ok true) :
    JsonComplete core levels r how world (exportJsonEx core levels r how world).2 := by
  intro whole hmore
  rcases exportJsonEx_cutShort hmore.failsEarlier r levels how world with hsame | ⟨hfalse, -⟩
  · exact hsame.symm.trans (Prod.ext htrue rfl)
  · cases htrue.symm.trans hfalse

/-! ## INI -/

/-- The INI exporter is marked wherever anything but a `double` has been refused. -/
theorem exportIniEx_calls (hcore : core.Records refusals) (levels : Nat) (r : Reader)
    (how : Option ExportOptions) (world : σ)
    (htrue : (exportIniEx core levels r how world).1 = .ok true) :
    (refusals (exportIniEx core levels r how world).2).calls = (refusals world).calls ∧
      (refusals (exportIniEx core levels r how world).2).allocations =
        (refusals world).allocations := by
  let I : ExportState σ → Prop := fun s => s.writeFailed = false →
    (refusals s.world).calls = (refusals world).calls ∧
      (refusals s.world).allocations = (refusals world).allocations
  let E : ExportStop → ExportState σ → Prop := fun stop s => stop = .failed → I s
  have hkeep : ∀ s world', I s → refusals world' = refusals s.world →
      I { s with world := world' } := by
    intro s world' hs hsame hready
    rw [hsame]
    exact hs hready
  -- a mark is all that is asked for
  have hmarked : ∀ s : ExportState σ, E .failed { s with writeFailed := true } :=
    fun s _ hready => absurd hready.symm Bool.false_ne_true
  have hkeeps : core.KeepsIni I E := by
    refine hcore.keepsIni (hcore.keeps (fun s hs _ _ => hs) hkeep ?_ ?_) (fun s hs _ => hs) hkeep ?_
    · exact fun s world' _ _ => hmarked { s with world := world' }
    · exact fun s world' _ _ => hmarked { s with world := world' }
    · intro s world' hs hdouble _ hready
      rw [hdouble]
      exact hs hready
  have halloc : ∀ bytes, Keeps I (fun _ _ => True) (scratchAlloc core bytes (throw .failed)) :=
    hcore.rootAlloc hkeep fun _ _ _ _ => trivial
  have hroots : Keeps I (fun _ _ => True) (iniRoots core how r levels) :=
    Keeps.iniRoots hkeeps ⟨fun s _ => hmarked s, fun _ _ => nofun⟩ (fun _ _ => nofun)
      (fun s hs => hs rfl) (fun _ _ _ _ => trivial) ⟨fun _ _ => trivial, fun _ _ => trivial⟩ how r
      levels halloc
  obtain ⟨s, hrun, hready, hend⟩ := exportEnd_eq_true htrue
  rw [exportIniEx, hend]
  exact (hroots _ fun _ => ⟨rfl, rfl⟩).1 _ s hrun hready

theorem Core.Records.sparing (hcore : core.Records refusals) : core.sparing.Records refusals where
  writeBytes := hcore.writeBytes
  allocate := hcore.allocate
  formatSigned := hcore.formatSigned
  formatUnsigned := hcore.formatUnsigned
  formatHexadecimal := hcore.formatHexadecimal
  formatDouble := by
    intro size bits world
    rcases core.sparing_eq_some size bits world with ⟨text, world', hcall, hrun⟩ | hrun
    · have hrecord := hcore.formatDouble size bits world
      rw [hcall] at hrecord
      rw [hrun]
      exact hrecord
    · rw [hrun]
      rfl

/-- Where the finite doubles of a document are formatted, none of them is refused. -/
theorem printIniRoots_doubles (hcore : core.Records refusals) {document : Document}
    (hdoubles : core.FormatsDoubles document) (world : σ)
    (htrue : (exportEnd (printIniRoots core document) world).1 = .ok true) :
    (refusals (exportEnd (printIniRoots core document) world).2).doubles =
      (refusals world).doubles := by
  let I : ExportState σ → Prop := fun s => (refusals s.world).doubles = (refusals world).doubles
  let E : ExportStop → ExportState σ → Prop := fun _ s => I s
  have hkeep : ∀ s world', I s → refusals world' = refusals s.world →
      I { s with world := world' } := by
    intro s world' hs hsame
    exact (congrArg Refusals.doubles hsame).trans hs
  -- with the other core no `double` is refused
  have hkeeps : core.sparing.KeepsIni I E :=
    { toKeeps := hcore.sparing.keeps (fun s hs _ => hs) hkeep
        (fun s world' hs hcall => (congrArg Refusals.doubles hcall).trans hs)
        fun s world' hs hallocation => (congrArg Refusals.doubles hallocation).trans hs
      stop := fun s hs => hs
      formatDouble := fun size bits s hs => by
        have hrecord := hcore.sparing.formatDouble size bits s.world
        rcases core.sparing_eq_some size bits s.world with ⟨text, world', -, hrun⟩ | hrun
        all_goals
          rw [hrun] at hrecord ⊢
          exact ⟨fun _ => hkeep s _ hs hrecord, fun hnone => absurd hnone (Option.some_ne_none _)⟩ }
  have halloc : Keeps I (fun _ _ => True)
      (scratchAlloc core.sparing (document.length * 24) (throw .failed)) :=
    hcore.sparing.rootAlloc hkeep (fun _ _ _ _ => trivial) _
  have hroots : Keeps I (fun _ _ => True) (printIniRoots core.sparing document) :=
    Keeps.printIniRoots hkeeps (fun s hs => hs) (fun _ _ _ _ => trivial)
      (.inl ⟨fun s hs => hs, fun s hs => hs⟩) halloc
  rw [hdoubles.sameCalls.printIniRoots] at hroots
  obtain ⟨s, hrun, -, hend⟩ := exportEnd_eq_true htrue
  rw [hend]
  exact (hroots _ rfl).1 _ s hrun

end

/-! ## Written documents -/

section

variable {core : Core σ} {output : σ → Bytes} {refusals : σ → Refusals} {hash64 : Bytes → UInt64}
  {r : Reader} {document stored : Document} (hrecords : core.Records refusals)
  (hcore : core.Accepts output) (hsort : Sorts core.sortWithCompare)
  (hfile : HoldsDocument hash64 r stored) (hstored : RearrangedDocument List.Perm document stored)
  {levels : Nat} (hlevels : membersDepth stored ≤ levels) (how : Option ExportOptions) (world : σ)

include hrecords hcore hsort hfile hstored hlevels

/-- Where the finite doubles of the document in a file are formatted, its INI export returns `true`
only behind all of its lines. -/
theorem exportIniEx_succeedsWhole (hdoubles : core.FormatsDoubles document) :
    SucceedsWhole refusals (IniComplete core output document world) world
      (exportIniEx core levels r how world) := by
  intro htrue
  obtain ⟨hcalls, -⟩ := exportIniEx_calls hrecords levels r how world htrue
  refine ⟨hcalls, ?_, ?_⟩
  · obtain ⟨document', horder, hprint⟩ :
        ∃ document', RearrangedDocument (exportOrder how) stored document' ∧ _ :=
      iniRoots_holds hsort hfile hlevels
    rw [exportIniEx, hprint] at htrue ⊢
    exact printIniRoots_doubles hrecords
      (hdoubles.rearranged (hstored.trans (horder.mono fun _ _ => exportOrder.perm))) world htrue
  · obtain ⟨result, world', document', hend, horder, hlines, -⟩ :=
      exportIniEx_formats hcore hsort hfile hlevels (hdoubles.rearranged hstored) how world
    rw [hend] at htrue ⊢
    obtain ⟨hflat, text, houtput, htext⟩ := hlines (Except.ok.inj htrue)
    rw [hstored.flat_eq fun _ _ => id] at hflat
    exact ⟨hflat, text, document', houtput,
      hstored.trans (horder.mono fun _ _ => exportOrder.perm), htext⟩

/-- Where nothing but doubles is refused, it does so for no other document without containers in
arrays. -/
theorem exportIniEx_succeedsWhole_iff (hserves : core.ServesOthers) (hbits : core.FormatsByBits)
    (hflat : membersFlat document = true) :
    SucceedsWhole refusals (IniComplete core output document world) world
      (exportIniEx core levels r how world) ↔ core.FormatsDoubles document := by
  refine ⟨fun hwhole bits hmem hfinite world' => ?_, fun hdoubles =>
    exportIniEx_succeedsWhole hrecords hcore hsort hfile hstored hlevels how world hdoubles⟩
  have hstoredFlat : membersFlat stored = true := by
    rw [hstored.flat_eq fun _ _ => id, hflat]
  obtain ⟨-, -, -, text, document', -, horder, htext⟩ :=
    hwhole (exportIniEx_served hserves hsort hfile hlevels hstoredFlat how world)
  have hflat' : membersFlat document' = true := by
    rw [horder.flat_eq fun _ _ => id, hflat]
  obtain ⟨world₀, hsome⟩ := htext.formatted hflat' (horder.mem_scalars.mpr hmem) hfinite
  exact hbits bits world₀ world' hsome

end

/-- What the exporters return, with any core whose world records its refusals. With JSON, `true`
means that nothing has been refused and that the text is there as a whole, whatever the file is. With
INI, it means this for the file of a document whose finite doubles are formatted; where nothing but
doubles is refused, for no other one without containers in arrays. -/
theorem export_succeedsWhole_iff {core : Core σ} {output : σ → Bytes} {refusals : σ → Refusals}
    (hrecords : core.Records refusals) (hcore : core.Accepts output)
    (hsort : Sorts core.sortWithCompare) {env : Env} {options : Option WriterOptions}
    {ops : List Op} {w : Writer} (hrun : (Writer.create options).runs env ops = some w)
    (hclosed : w.currentScope = none) (how : Option ExportOptions) :
    (∀ levels r world, SucceedsWhole refusals (JsonComplete core levels r how world) world
      (exportJsonEx core levels r how world)) ∧
    ∃ document : Document, Builder.empty.run ops = some ⟨document, []⟩ ∧
      (documentSize env.hash64 document < 2 ^ 32 →
        w.Finalizes env document fun b => ∃ r enough, openBuffer true b = .ok r ∧
          ∀ levels ≥ enough, ∀ world,
            (core.FormatsDoubles document →
              SucceedsWhole refusals (IniComplete core output document world) world
                (exportIniEx core levels r how world)) ∧
            (core.ServesOthers → core.FormatsByBits → membersFlat document = true →
              (SucceedsWhole refusals (IniComplete core output document world) world
                  (exportIniEx core levels r how world) ↔
                core.FormatsDoubles document))) := by
  constructor
  · intro levels r world htrue
    have hcomplete := exportJsonEx_complete levels r how world htrue
    have hnone := exportJsonEx_whole hrecords levels r how world htrue
    exact ⟨congrArg Refusals.calls hnone, congrArg Refusals.doubles hnone, hcomplete⟩
  obtain ⟨document, hb, hwritten⟩ := runs_written hrun hclosed
  refine ⟨document, hb, fun hsize => ?_⟩
  refine (hwritten hsize).mono fun b hbytes =>
    ⟨_, membersDepth document, openBuffer_document hbytes, ?_⟩
  intro levels hlevels world
  have hdepth : membersDepth (document.inFileOrder env.hash64) ≤ levels := by
    rwa [membersDepth_document]
  have hstored := rearrangedDocument_inFileOrder env.hash64 document
  have hfile := holdsDocument_document hbytes hsize
  constructor
  · intro hdoubles
    exact exportIniEx_succeedsWhole hrecords hcore hsort hfile hstored hdepth how world hdoubles
  · intro hserves hbits hflat
    exact exportIniEx_succeedsWhole_iff hrecords hcore hsort hfile hstored hdepth how world hserves
      hbits hflat

theorem Core.Accepts.watched {core : Core σ} {output : σ → Bytes} (h : core.Accepts output) :
    core.watched.Accepts fun world => output world.1 where
  writeBytes data world world' hrun := by
    obtain ⟨htrue, rfl⟩ := Prod.ext_iff.mp hrun
    exact h.writeBytes data world.1 _ (Prod.ext htrue rfl)
  allocate bytes world := h.allocate bytes world.1
  formatSigned value world := h.formatSigned value world.1
  formatUnsigned value world := h.formatUnsigned value world.1
  formatHexadecimal c world := h.formatHexadecimal c world.1
  formatDouble bits hfinite world := h.formatDouble bits hfinite world.1

/-- A block with an array of a `double`, and a formatter that knows no other one. -/
theorem export_succeedsWhole_iff_float :
    ∃ w b v r enough, (Writer.create none).runs (.succeeding fun key => UInt64.ofNat key.length)
        [.beginBlock (.data [0x73]), .beginArray (.data [0x78]), .appendFloat64 0x3FF8000000000000,
          .endArray, .endBlock, .setInt64 (.data [0x70]) 80] = some w ∧
      finalizeToBuffer (.succeeding fun key => UInt64.ofNat key.length) w =
        .returned b.bytes v ∧
      openBuffer true b = .ok r ∧
      (∀ levels world, SucceedsWhole Prod.snd
        (JsonComplete fewFloatsCore.watched levels r none world) world
          (exportJsonEx fewFloatsCore.watched levels r none world)) ∧
      ∀ levels ≥ enough, ∀ world, SucceedsWhole Prod.snd
        (IniComplete fewFloatsCore.watched Prod.fst [([0x73], .block [([0x78],
          .array [.scalar (.float64 0x3FF8000000000000)])]), ([0x70], .scalar (.int64 80))] world)
            world (exportIniEx fewFloatsCore.watched levels r none world) := by
  obtain ⟨w, hrun, hclosed, hworkers⟩ : ∃ w, (Writer.create none).runs
      (.succeeding fun key => UInt64.ofNat key.length)
      [.beginBlock (.data [0x73]), .beginArray (.data [0x78]), .appendFloat64 0x3FF8000000000000,
        .endArray, .endBlock, .setInt64 (.data [0x70]) 80] = some w ∧ w.currentScope = none ∧
        WorkersFit w.options.workerCount := ⟨_, rfl, rfl, by decide⟩
  obtain ⟨hjson, document, hb, hfile⟩ := export_succeedsWhole_iff (watched_records fewFloatsCore)
    fewFloatsCore_accepts.watched sorts_insertionSortWith hrun hclosed none
  cases hb
  have hdoubles : fewFloatsCore.watched.FormatsDoubles [([0x73], .block [([0x78],
      .array [.scalar (.float64 0x3FF8000000000000)])]), ([0x70], .scalar (.int64 80))] := by
    intro bits hmem hfinite world
    change .float64 bits ∈ [Scalar.float64 0x3FF8000000000000, .int64 80] at hmem
    simp only [List.mem_cons, List.not_mem_nil, Scalar.float64.injEq, reduceCtorEq,
      or_false] at hmem
    subst hmem
    exact Option.some_ne_none _
  obtain ⟨b, v, hreturned, r, enough, hopen, hini⟩ :=
    (hfile (by decide +kernel)).returned (Env.succeeding_succeeds _) hworkers
  exact ⟨w, b, v, r, enough, hrun, hreturned, hopen, fun levels => hjson levels r,
    fun levels hlevels world => (hini levels hlevels world).1 hdoubles⟩

/-- A core that does not format a `double`. -/
def floatlessCore : Core Bytes :=
  { plainCore with formatDouble := fun _ _ written => (none, written) }

/-- The INI export of this file returns `true` behind a line without its value and its end. -/
theorem not_succeedsWhole :
    ∃ w b v r, (Writer.create none).runs (.succeeding fun key => UInt64.ofNat key.length)
        [.setFloat64 (.data [0x61]) 0x3FF8000000000000] = some w ∧
      finalizeToBuffer (.succeeding fun key => UInt64.ofNat key.length) w =
        .returned b.bytes v ∧
      openBuffer true b = .ok r ∧
      ∀ levels ≥ 1, exportIniEx floatlessCore.watched levels r none
          ([], { doubles := 0, calls := 0, allocations := 0 }) =
            (.ok true, ascii ['a', ' ', '=', ' '],
              { doubles := 1, calls := 0, allocations := 0 }) ∧
        ∀ complete, ¬SucceedsWhole Prod.snd complete
          ([], { doubles := 0, calls := 0, allocations := 0 })
          (exportIniEx floatlessCore.watched levels r none
            ([], { doubles := 0, calls := 0, allocations := 0 })) := by
  obtain ⟨w, hrun, hclosed, hworkers⟩ : ∃ w, (Writer.create none).runs
      (.succeeding fun key => UInt64.ofNat key.length)
      [.setFloat64 (.data [0x61]) 0x3FF8000000000000] = some w ∧ w.currentScope = none ∧
        WorkersFit w.options.workerCount := ⟨_, rfl, rfl, by decide⟩
  obtain ⟨document, hb, hwritten⟩ := runs_written hrun hclosed
  obtain rfl : document = [([0x61], .scalar (.float64 0x3FF8000000000000))] := by
    cases hb
    rfl
  obtain ⟨b, v, hreturned, hbytes⟩ :=
    (hwritten (by decide +kernel)).returned (Env.succeeding_succeeds _) hworkers
  refine ⟨w, b, v, _, hrun, hreturned, openBuffer_document hbytes, fun levels hlevels => ?_⟩
  obtain ⟨document', ⟨_, ⟨_, _, rfl, rfl, rfl⟩, hsorted⟩, hprint⟩ :
      ∃ document', RearrangedDocument (exportOrder none) _ document' ∧
        iniRoots floatlessCore.watched none _ levels = _ :=
    iniRoots_holds sorts_insertionSortWith (holdsDocument_document hbytes (by decide +kernel))
      (membersDepth_document.trans_le hlevels)
  obtain rfl : document' = [([0x61], .scalar (.float64 0x3FF8000000000000))] :=
    List.perm_singleton.mp (exportOrder.perm hsorted).symm
  have hend : exportEnd (printIniRoots floatlessCore.watched
      [([0x61], .scalar (.float64 0x3FF8000000000000))])
      ([], { doubles := 0, calls := 0, allocations := 0 }) =
        (.ok true, ascii ['a', ' ', '=', ' '],
          { doubles := 1, calls := 0, allocations := 0 }) := rfl
  rw [exportIniEx, hprint, hend]
  exact ⟨rfl, fun complete hwhole => absurd (hwhole rfl).2.1 (by decide)⟩

end Hrbl
