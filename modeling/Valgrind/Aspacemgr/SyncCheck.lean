import Valgrind.Aspacemgr.Advisory
import Valgrind.Aspacemgr.ProcMaps

/-!
# The sync check

`VG_(am_do_sync_check)` compares the segment array with the kernel's view of the address space.
Each mapping and each gap of the kernel is compared with the segments that it touches. No
interval is matched exactly, but as the intervals cover the address space, a disagreement about
a boundary shows in one of the neighbours: `amDoSyncCheck_exact`.
-/

namespace Valgrind.Aspacemgr

open Machine Intervals

/-! ## The code -/

/-- The name `/dev/zero (deleted)`. -/
def devZeroDeleted : List UInt8 :=
  ['/', 'd', 'e', 'v', '/', 'z', 'e', 'r', 'o', ' ', '(', 'd', 'e', 'l', 'e', 't', 'e', 'd', ')'].map Char.toUInt8

/-- The part `/.lib-ro/` of a name. -/
def libRo : List UInt8 := ['/', '.', 'l', 'i', 'b', '-', 'r', 'o', '/'].map Char.toUInt8

/-- The kinds of segment that are mapped. -/
def SegKind.isMapped : SegKind → Bool
  | .skAnonC | .skAnonV | .skFileC | .skFileV | .skShmC => true
  | .skFree | .skResvn => false

/-- The comparison of a segment with a mapping of the kernel. -/
def sameMapping (sloppyXcheck : Bool) (l : MapsLine) (s : NSegment) : Bool :=
  let segProt := protOf s.hasR s.hasW s.hasX
  let cmpOffsets := decide (s.kind = .skFileC ∨ s.kind = .skFileV)
  let cmpDevino := decide (s.dev ≠ 0 ∨ s.ino ≠ 0)
  -- bproc changes the name of /dev/zero, and its device and inode
  let cmpDevino := if l.filename = some devZeroDeleted then false else cmpDevino
  -- hack apparently needed on MontaVista Linux
  let cmpDevino := if l.filename.any fun f => decide (libRo <:+: f) then false else cmpDevino
  -- the kernel may report execute permission where it was not asked for
  let segProt := if sloppyXcheck && protX l.prot then segProt ||| 4 else segProt
  s.kind.isMapped && decide (segProt = l.prot)
    && (if cmpDevino then decide (s.dev = l.dev ∧ s.ino = l.ino) else true)
    && (if cmpOffsets then decide (BitVec.ofNat 64 s.start - s.offset = BitVec.ofNat 64 l.addr - l.offset) else true)

/-- The comparison of a segment with a gap of the kernel. -/
def sameGap (s : NSegment) : Bool := decide (s.kind = .skFree ∨ s.kind = .skResvn)

section Functions

variable [Machine]

/-- What the two callbacks share: all segments that the range touches pass the comparison. -/
def syncCheckRange (am : Aspacem) (same : NSegment → Bool) (syncCheckOk : Bool) (addr len : Nat) : Result Bool :=
  -- after the first problem nothing is compared any more
  if syncCheckOk = false ∨ len = 0 then .ok syncCheckOk
  else do
    -- the kernel should not give us wraparounds
    assertThat (addr ≤ subW (addW addr len) 1)
    let iLo ← findNsegmentIdx am addr
    let iHi ← findNsegmentIdx am (subW (addW addr len) 1)
    assertThat (iLo < am.nsegments.length)
    assertThat (iHi < am.nsegments.length)
    assertThat (iLo ≤ iHi)
    assertThat ((am.seg iLo).start ≤ addr)
    assertThat (subW (addW addr len) 1 ≤ (am.seg iHi).end_)
    return (am.slice iLo iHi).all same

/-- `sync_check_mapping_callback`. -/
def syncCheckMappingCallback (sloppyXcheck : Bool) (am : Aspacem) (syncCheckOk : Bool) (l : MapsLine) : Result Bool :=
  syncCheckRange am (sameMapping sloppyXcheck l) syncCheckOk l.addr l.len

/-- `sync_check_gap_callback`. -/
def syncCheckGapCallback (am : Aspacem) (syncCheckOk : Bool) (addr len : Nat) : Result Bool :=
  syncCheckRange am sameGap syncCheckOk addr len

/-- The callbacks of the sync check. -/
def syncCallbacks (sloppyXcheck : Bool) (am : Aspacem) : Callbacks Bool where
  recordMapping := some (syncCheckMappingCallback sloppyXcheck am)
  recordGap := some (syncCheckGapCallback am)

/-- `VG_(am_do_sync_check)`, with the bytes of `/proc/self/maps`. `sloppyXcheck` is set on x86. -/
def amDoSyncCheck (sloppyXcheck : Bool) (am : Aspacem) (file : List UInt8) : Result Bool := do
  let (syncCheckOk, _) ← parseProcselfmaps (syncCallbacks sloppyXcheck am) file true
  return syncCheckOk

/-! ## What it means -/

/-- A segment agrees with a mapping of the kernel. -/
structure Agrees (sloppyXcheck : Bool) (l : MapsLine) (s : NSegment) : Prop where
  kind : s.kind.isMapped = true
  r : s.hasR = protR l.prot
  w : s.hasW = protW l.prot
  x : s.hasX = protX l.prot ∨ sloppyXcheck = true ∧ protX l.prot = true
  /-- Two names are excepted. -/
  devIno : s.dev ≠ 0 ∨ s.ino ≠ 0 → l.filename ≠ some devZeroDeleted → (∀ f, l.filename = some f → ¬ libRo <:+: f) →
    s.dev = l.dev ∧ s.ino = l.ino
  /-- Where the file begins. -/
  offset : s.kind = .skFileC ∨ s.kind = .skFileV →
    BitVec.ofNat 64 s.start - s.offset = BitVec.ofNat 64 l.addr - l.offset

/-- A line is about an address. -/
def LineText.Holds (l : LineText) (x : Nat) : Prop := l.start.value 16 ≤ x ∧ x < l.end_.value 16

/-- Kernel and segment array agree about an address. -/
structure AgreesAt (sloppyXcheck : Bool) (ls : List LineText) (s : NSegment) (x : Nat) : Prop where
  mapped : s.kind.isMapped = true ↔ ∃ l ∈ ls, l.Holds x
  agrees : ∀ l ∈ ls, l.Holds x → Agrees sloppyXcheck l.mapping s

variable {am : Aspacem} {s : NSegment} {test : NSegment → Bool} {addr len : Nat} {sloppyXcheck syncCheckOk : Bool}
  {l : LineText} {ls : List LineText} {events : List MapsEvent}

/-! ## The comparisons -/

omit [Machine] in
theorem sameGap_iff : sameGap s = true ↔ s.kind.isMapped = false := by
  unfold sameGap SegKind.isMapped
  cases s.kind <;> simp

omit [Machine] in
theorem prot_eq_iff (sloppy r w x r' w' x' : Bool) :
    (if sloppy = true ∧ protX (protOf r' w' x') = true then protOf r w x ||| 4 else protOf r w x) = protOf r' w' x' ↔
      r = protR (protOf r' w' x') ∧ w = protW (protOf r' w' x') ∧
        (x = protX (protOf r' w' x') ∨ sloppy = true ∧ protX (protOf r' w' x') = true) := by
  revert sloppy r w x r' w' x'
  decide

omit [Machine] in
/-- A comparison that is left out for two reasons. -/
theorem excepted_iff {a c d : Prop} {b : Bool} [Decidable a] [Decidable c] [Decidable d] :
    (if (if b then false else if a then false else decide c) then decide d else true) = true ↔
      (c → ¬ a → b = false → d) := by
  by_cases ha : a <;> by_cases hc : c <;> cases b <;> simp [ha, hc]

theorem sameMapping_iff (l : LineText) : sameMapping sloppyXcheck l.mapping s = true ↔ Agrees sloppyXcheck l.mapping s := by
  have hprot := prot_eq_iff sloppyXcheck s.hasR s.hasW s.hasX l.r l.w l.x
  have hline : l.mapping.prot = protOf l.r l.w l.x := rfl
  generalize l.mapping = m at hline
  rw [← hline] at hprot
  have hlib : (m.filename.any fun f => decide (libRo <:+: f)) = false ↔ ∀ f, m.filename = some f → ¬ libRo <:+: f := by
    cases m.filename <;> simp
  unfold sameMapping
  simp only [Bool.and_eq_true, decide_eq_true_eq, hprot, excepted_iff, hlib]
  constructor
  · rintro ⟨⟨⟨hkind, hr, hw, hx⟩, hdev⟩, hoff⟩
    exact ⟨hkind, hr, hw, hx, hdev, fun hfile => by simpa [hfile] using hoff⟩
  · rintro ⟨hkind, hr, hw, hx, hdev, hoff⟩
    refine ⟨⟨⟨hkind, hr, hw, hx⟩, hdev⟩, ?_⟩
    split
    · rename_i hfile
      exact decide_eq_true (hoff hfile)
    · rfl

/-- **One interval**: no assertion fails, and the segments of all its addresses are compared. -/
theorem syncCheckRange_spec (hwf : Wf am.segnames am.nsegments) (hlen : 0 < len) (hfit : addr + len ≤ wordMod) :
    ∃ ok, syncCheckRange am test syncCheckOk addr len = .ok ok ∧ (ok = true ↔ syncCheckOk = true ∧
      ∀ x, addr ≤ x → x < addr + len → ∃ s, segAt am.nsegments x = some s ∧ test s = true) := by
  have hlast : subW (addW addr len) 1 = addr + len - 1 := by
    rcases Nat.lt_or_ge (addr + len) wordMod with hlt | hge
    · exact lastByte_eq hlt hlen
    · have hpos := wordMod_pos
      rw [addW, show addr + len = wordMod by omega, Nat.mod_self, subW, Nat.zero_add, Nat.mod_eq_of_lt (by omega)]
  cases syncCheckOk with
  | false => exact ⟨false, by simp [syncCheckRange], by simp⟩
  | true =>
    obtain ⟨L, s₁, R, -, hLo, -, -⟩ := findNsegmentIdx_spec hwf.tiled (show addr < wordMod by omega)
    obtain ⟨L', s₂, R', -, hHi, -, -⟩ := findNsegmentIdx_spec hwf.tiled (show addr + len - 1 < wordMod by omega)
    obtain ⟨hlo, hlo₁, hlo₂⟩ := findNsegmentIdx_getElem? hwf.tiled (by omega) hLo
    obtain ⟨hhi, hhi₁, hhi₂⟩ := findNsegmentIdx_getElem? hwf.tiled (by omega) hHi
    have hle : L.length ≤ L'.length := by
      by_contra hgt
      have := SegTiled.index_lt hwf.tiled hhi hlo (Nat.not_le.mp hgt)
      omega
    refine ⟨(am.slice L.length L'.length).all test, ?_, ?_⟩
    · rw [syncCheckRange, if_neg (by simp; omega), hlast, assertThat_of (by omega), ok_bind, hLo, ok_bind, hHi, ok_bind,
        assertThat_of (List.getElem?_eq_some_iff.mp hlo).1, ok_bind,
        assertThat_of (List.getElem?_eq_some_iff.mp hhi).1, ok_bind, assertThat_of hle, ok_bind, assertThat_of hlo₁,
        ok_bind, assertThat_of hhi₂, ok_bind]
      rfl
    · rw [slice_all_iff hwf (by omega) (by omega) hLo hHi]
      simp only [true_and]
      exact forall_congr' fun x => imp_congr_right fun _ => imp_congr (by omega) Iff.rfl

/-- The comparison that belongs to an event. -/
def MapsEvent.same (sloppyXcheck : Bool) : MapsEvent → NSegment → Bool
  | .mapping l => sameMapping sloppyXcheck l
  | .gap _ _ => sameGap

/-- **All intervals**, one after the other. -/
theorem syncEvents_spec (sloppyXcheck syncCheckOk : Bool) (hwf : Wf am.segnames am.nsegments)
    (hrange : ∀ e ∈ events, e.lo < e.hi ∧ e.hi ≤ wordMod) :
    ∃ ok, runSteps (syncCallbacks sloppyXcheck am).handle syncCheckOk events = .ok ok ∧
      (ok = true ↔ syncCheckOk = true ∧ ∀ e ∈ events, ∀ x, e.lo ≤ x → x < e.hi →
        ∃ s, segAt am.nsegments x = some s ∧ e.same sloppyXcheck s = true) := by
  induction events generalizing syncCheckOk with
  | nil => exact ⟨syncCheckOk, rfl, by simp⟩
  | cons e events ih =>
    obtain ⟨hlt, hfit⟩ := hrange e (by simp)
    have hstep : ∃ ok, (syncCallbacks sloppyXcheck am).handle syncCheckOk e = .ok ok ∧ (ok = true ↔ syncCheckOk = true ∧
        ∀ x, e.lo ≤ x → x < e.hi → ∃ s, segAt am.nsegments x = some s ∧ e.same sloppyXcheck s = true) := by
      cases e with
      | mapping l => exact syncCheckRange_spec hwf (by simp only [MapsEvent.lo, MapsEvent.hi] at hlt; omega) hfit
      | gap addr len => exact syncCheckRange_spec hwf (by simp only [MapsEvent.lo, MapsEvent.hi] at hlt; omega) hfit
    obtain ⟨ok, hok, hiff⟩ := hstep
    obtain ⟨ok', hok', hiff'⟩ := ih ok (fun e he => hrange e (by simp [he]))
    refine ⟨ok', runSteps_cons.mpr ⟨ok, hok, hok'⟩, ?_⟩
    rw [hiff', hiff, List.forall_mem_cons, and_assoc]

/-- The range of a line. -/
theorem holds_iff {x : Nat} : l.Holds x ↔ (MapsEvent.mapping l.mapping).lo ≤ x ∧ x < (MapsEvent.mapping l.mapping).hi := by
  have hend : l.start.value 16 + (l.end_.value 16 - l.start.value 16) = l.end_.value 16 := by
    have := l.ordered
    omega
  simp only [MapsEvent.lo, MapsEvent.hi, LineText.mapping, hend, LineText.Holds]

/-- An event is a mapping iff it comes from a line. -/
theorem mapping_mem_iff {m : MapsLine} : MapsEvent.mapping m ∈ mapsEvents ls ↔ ∃ l ∈ ls, l.mapping = m := by
  have hmem : m ∈ (mapsEvents ls).filterMap MapsEvent.mapping? ↔ m ∈ ls.map LineText.mapping := by
    rw [filterMap_mapsEvents]
  rw [List.mem_map] at hmem
  rw [← hmem, List.mem_filterMap]
  constructor
  · exact fun h => ⟨_, h, rfl⟩
  · rintro ⟨e, he, heq⟩
    cases e with
    | mapping l => exact Option.some.inj heq ▸ he
    | gap addr len => exact nomatch heq

/-- All comparisons succeed iff kernel and segment array agree everywhere. -/
theorem events_same_iff (hls : Ascending ls) :
    (∀ e ∈ mapsEvents ls, ∀ x, e.lo ≤ x → x < e.hi →
      ∃ s, segAt am.nsegments x = some s ∧ e.same sloppyXcheck s = true) ↔
    ∀ x < wordMod, ∃ s, segAt am.nsegments x = some s ∧ AgreesAt sloppyXcheck ls s x := by
  have htiled := tiled_mapsEvents hls
  constructor
  · intro hall x hx
    obtain ⟨e, he⟩ := htiled.exists_locate (Nat.zero_le x) hx
    obtain ⟨hmem, h₁, h₂⟩ := mem_of_locate he
    obtain ⟨s, hs, hsame⟩ := hall e hmem x h₁ h₂
    have hagree : ∀ l ∈ ls, l.Holds x → Agrees sloppyXcheck l.mapping s := by
      intro l hl hh
      obtain ⟨s', hs', hsame'⟩ := hall _ (mapping_mem_iff.mpr ⟨l, hl, rfl⟩) x (holds_iff.mp hh).1 (holds_iff.mp hh).2
      obtain rfl := Option.some.inj (hs.symm.trans hs')
      exact (sameMapping_iff l).mp hsame'
    refine ⟨s, hs, ⟨fun hkind => ?_, fun ⟨l, hl, hh⟩ => (hagree l hl hh).kind⟩, hagree⟩
    cases e with
    | mapping m =>
      obtain ⟨l, hl, rfl⟩ := mapping_mem_iff.mp hmem
      exact ⟨l, hl, holds_iff.mpr ⟨h₁, h₂⟩⟩
    | gap addr len => exact absurd hkind (Bool.eq_false_iff.mp (sameGap_iff.mp hsame))
  · intro hall e he x h₁ h₂
    have hx : x < wordMod := Nat.lt_of_lt_of_le h₂ (htiled.mem_bounds he).2.2
    obtain ⟨s, hs, hagree⟩ := hall x hx
    refine ⟨s, hs, ?_⟩
    cases e with
    | mapping m =>
      obtain ⟨l, hl, rfl⟩ := mapping_mem_iff.mp he
      exact (sameMapping_iff l).mpr (hagree.agrees l hl (holds_iff.mpr ⟨h₁, h₂⟩))
    | gap addr len =>
      refine sameGap_iff.mpr (Bool.eq_false_iff.mpr fun hkind => ?_)
      -- a line about this address would overlap the gap
      obtain ⟨l, hl, hh⟩ := hagree.mapped.mp hkind
      have hline := htiled.locate_eq_some_iff.mpr ⟨mapping_mem_iff.mpr ⟨l, hl, rfl⟩, holds_iff.mp hh⟩
      have hgap := htiled.locate_eq_some_iff.mpr ⟨he, h₁, h₂⟩
      exact nomatch Option.some.inj (hline.symm.trans hgap)

/-- **The sync check is exact**: the parser tells the callbacks of every line and of every gap,
in order, and leaves the buffer as it was; and the check succeeds iff kernel and segment array
agree about every address. -/
theorem amDoSyncCheck_exact (am : Aspacem) (hwf : Wf am.segnames am.nsegments) (ls : List LineText) (hne : ls ≠ [])
    (hls : Ascending ls) (hlen : (textOf ls).length < mProcmapBuf - 5) (hnames : ∀ l ∈ ls, l.name ≠ ['/'.toUInt8])
    (sloppyXcheck : Bool) :
    (∀ (σ : Type) (cb : Callbacks σ) (s : σ), parseProcselfmaps cb (textOf ls) s =
      (runSteps cb.handle s (mapsEvents ls) >>= fun s' => pure (s', textOf ls))) ∧
    (mapsEvents ls).filterMap MapsEvent.mapping? = ls.map LineText.mapping ∧
    Tiled MapsEvent.lo MapsEvent.hi 0 wordMod (mapsEvents ls) ∧
    ∃ ok, amDoSyncCheck sloppyXcheck am (textOf ls) = .ok ok ∧
      (ok = true ↔ ∀ x < wordMod, ∃ s, segAt am.nsegments x = some s ∧ AgreesAt sloppyXcheck ls s x) := by
  have hparse := fun (σ : Type) (cb : Callbacks σ) => parseProcselfmaps_text cb hne hlen hnames
  have htiled := tiled_mapsEvents hls
  refine ⟨hparse, filterMap_mapsEvents ls, htiled, ?_⟩
  obtain ⟨ok, hok, hiff⟩ := syncEvents_spec sloppyXcheck true hwf fun e he => (htiled.mem_bounds he).2
  refine ⟨ok, ?_, ?_⟩
  · rw [amDoSyncCheck, hparse, hok]
    rfl
  · rw [hiff, events_same_iff hls]
    exact ⟨fun h => h.2, fun h => ⟨rfl, h⟩⟩

end Functions

/-! ## Examples of texts -/

/-- A test of every element, run on the list. -/
theorem forall_of_all {α : Type} {p : α → Prop} [DecidablePred p] {l : List α}
    (h : l.all (fun a => decide (p a)) = true) : ∀ a ∈ l, p a := by
  simpa using h

/-- A number that is written with the given digits. -/
def numeral {digit : UInt8 → Int} (d : List Char)
    (h : d ≠ [] ∧ ∀ c ∈ d, 0 ≤ hexdigit c.toUInt8 ∧ 0 ≤ digit c.toUInt8) : Numeral digit where
  digits := d.map Char.toUInt8
  nonempty := by simpa using h.1
  all := by simpa using h.2

/-- `4000000-4001000 r-xp 1000 8:1 2` and a name. -/
def lineNamed (name : List UInt8) (hok : ∀ c ∈ name, c ≠ 0 ∧ c ≠ '\n'.toUInt8)
    (hhead : ∀ c ∈ name.head?, c ≠ ' '.toUInt8) :
    letI : Machine := amd64Linux
    LineText :=
  letI : Machine := amd64Linux
  { start := numeral ['4', '0', '0', '0', '0', '0', '0'] ⟨by decide, forall_of_all (by decide)⟩
    end_ := numeral ['4', '0', '0', '1', '0', '0', '0'] ⟨by decide, forall_of_all (by decide)⟩
    r := true
    w := false
    x := true
    shared := 'p'.toUInt8
    offset := numeral ['1', '0', '0', '0'] ⟨by decide, forall_of_all (by decide)⟩
    maj := numeral ['8'] ⟨by decide, forall_of_all (by decide)⟩
    min := numeral ['1'] ⟨by decide, forall_of_all (by decide)⟩
    ino := numeral ['2'] ⟨by decide, forall_of_all (by decide)⟩
    blanks := 1
    name := name
    ordered := by decide
    noWrap := by decide
    aligned := by decide
    shared_ok := by decide
    offset_fits := by decide
    dev_fits := by decide
    ino_fits := by decide
    name_ok := hok
    name_head := fun c hc => ⟨hhead c hc, by decide⟩ }

/-- A text is longer than a name in it. -/
theorem length_name_le [Machine] (l : LineText) : l.name.length ≤ (textOf [l]).length := by
  simp only [textOf, LineText.text, LineText.tail, List.length_append, List.length_cons]
  omega

/-- A file is mapped when the array is set up, and the kernel lists nothing else. -/
theorem amDoSyncCheck_exact_startup :
    letI : Machine := amd64Linux
    ∃ l am top, l.mapping.filename = some ['/'.toUInt8, 'x'.toUInt8] ∧ amStartup 0 [l.mapping] = .ok (am, top) ∧
      amDoSyncCheck false am (textOf [l]) = .ok true ∧
      ∀ x < wordMod, ∃ s, segAt am.nsegments x = some s ∧ AgreesAt false [l] s x := by
  let _ : Machine := amd64Linux
  let l := lineNamed ['/'.toUInt8, 'x'.toUInt8] (forall_of_all (by decide)) (by rintro c ⟨⟩; decide)
  obtain ⟨⟨am, top⟩, h₀, h⟩ := Result.exists_of_holds (r := amStartup 0 [l.mapping])
    (p := fun r => decide (amDoSyncCheck false r.1 (textOf [l]) = .ok true)) (by decide)
  have hcheck := of_decide_eq_true h
  obtain ⟨-, -, -, ok, hok, hiff⟩ := amDoSyncCheck_exact am (windowInv_amStartup h₀).inv.wf [l] (by simp)
    (List.pairwise_singleton _ _) (by decide) (by decide) false
  obtain rfl : ok = true := Except.ok.inj (hok.symm.trans hcheck)
  exact ⟨l, am, top, by decide, h₀, hcheck, hiff.mp rfl⟩

/-- A name of one character is not told, and neither is its offset; and a text that does not fit
into the buffer is not read at all. -/
theorem shortName_dropped :
    letI : Machine := amd64Linux
    (∃ l : LineText, l.hasName = true ∧ l.mapping.filename = some ['/'.toUInt8] ∧ l.mapping.offset = 0x1000 ∧
      parseProcselfmaps ⟨some fun s m => .ok (s ++ [m]), none⟩ (textOf [l]) [] =
        .ok ([{ l.mapping with filename := none, offset := 0 }], textOf [l])) ∧
    ∃ l : LineText, parseProcselfmaps (σ := Unit) ⟨none, none⟩ (textOf [l]) () = .error .tooLow := by
  let _ : Machine := amd64Linux
  refine ⟨⟨lineNamed ['/'.toUInt8] (forall_of_all (by decide)) (by rintro c ⟨⟩; decide), by decide, by decide,
    by decide, by decide⟩, ?_⟩
  have hok : ∀ c ∈ List.replicate mProcmapBuf '/'.toUInt8, c ≠ 0 ∧ c ≠ '\n'.toUInt8 ∧ c ≠ ' '.toUInt8 := by
    intro c hc
    rw [(List.mem_replicate.mp hc).2]
    decide
  obtain ⟨l, hname⟩ : ∃ l : LineText, l.name = List.replicate mProcmapBuf '/'.toUInt8 :=
    ⟨lineNamed _ (fun c hc => ⟨(hok c hc).1, (hok c hc).2.1⟩) fun c hc => (hok c (List.mem_of_mem_head? hc)).2.2, rfl⟩
  have hlen := length_name_le l
  rw [hname, List.length_replicate] at hlen
  have hlong : mProcmapBuf - 5 ≤ min mProcmapBuf (textOf [l]).length :=
    Nat.le_min.mpr ⟨Nat.sub_le _ _, (Nat.sub_le _ _).trans hlen⟩
  refine ⟨l, ?_⟩
  rw [parseProcselfmaps, readProcselfmapsIntoBuf, List.length_take, if_pos hlong]
  rfl

end Valgrind.Aspacemgr
