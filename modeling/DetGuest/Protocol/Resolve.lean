import DetGuest.Host.Manifest
import DetGuest.Protocol.Living

/-!
# Looking regions up

The host looks a region up by its name in a snapshot of the manifest.  In a run from the zeroed area
of the agent the used slots hold the regions of the book and the others hold zeros.  The look-up finds
the first region that is shown under a name, where a name is shown up to its first zero byte; for each
name it is known when that is a region which was registered under the name.
-/

namespace Protocol.Regions

open Wire Wire.Regionipc Agent Host

variable {τ : Type}

/-! ### Unused slots -/

/-- The entry of a slot that was never written. -/
def blankEntry : RegionEntry := RegionEntry.ofMem (fun _ => 0) 0

/-- The slots behind the regions of a book were never written. -/
def Blank (b : Book) (m : ByteMem) : Prop :=
  ∀ i, b.regions.length ≤ i → i < regionCapacity → RegionEntry.ofMem m i = blankEntry

section Blank

variable {b : Book} {m : Slice} {c : Change} {cs : List Change} {i : Nat}

/-- A change of a book leaves the slots behind its regions. -/
theorem entry_behind (hs : b.Stored m) (hc : b.Allows c) (hi : i < regionCapacity)
    (hbehind : (b.apply c).regions.length ≤ i) :
  RegionEntry.ofMem (m.writeAll (sealedWrites b.generation (b.writes c))).mem i
    = RegionEntry.ofMem m.mem i
  := by
  cases hc with
  | @publish r hcount hpool hoff hdead =>
      rw [Book.apply, Book.publish, List.length_append, List.length_singleton] at hbehind
      rw [Book.writes, writeAll_publishWrites_mem, entry_write_generation, entry_write_header,
        entry_write_entry (by omega), entry_putExtents hi, entry_write_generation]
  | @bury j r hr hdead howned =>
      rw [Book.apply, Book.bury_regions hr, List.length_set] at hbehind
      obtain ⟨hj, _⟩ := List.getElem?_eq_some_iff.mp hr
      rw [Book.writes, hr, sealedWrites, Slice.writeAll_cons, Slice.writeAll_append,
        Slice.writeAll_cons, Slice.writeAll_nil, Slice.write_mem, Slice.writeAll_fieldsAt_mem,
        Slice.write_mem, entry_write_generation, entry_write_entry (by omega),
        entry_write_generation]
  | @move j r extents hr hdead howned hfit =>
      rw [Book.apply, Book.move_eq hr, List.length_set] at hbehind
      obtain ⟨hj, _⟩ := List.getElem?_eq_some_iff.mp hr
      rw [Book.writes, hr]
      dsimp only
      rw [(Book.moveWrites_eq extents hs.sound hr).1]
      exact (writeAll_rewriteWrites (r.entry j) extents hs.headed (hs.sound.toNat_slot hr).2
        rfl).2.2.1 i hi (by omega)

theorem Blank.applyAll (h : Blank b m.mem) (hs : b.Stored m) (hallows : b.AllowsAll cs) :
  Blank (b.applyAll cs) (m.writeAll (b.log cs)).mem
  := by
  induction hallows generalizing m with
  | nil b => exact h
  | @cons b c cs hc _ ih =>
      rw [Book.log, Slice.writeAll_append]
      apply ih _ (hs.apply hc)
      intro i hbehind hi
      rw [entry_behind hs hc hi hbehind]
      apply h i _ hi
      apply Nat.le_trans _ hbehind
      cases hc with
      | publish _ _ _ _ => simp [Book.apply, Book.publish]
      | bury hr _ _ => rw [Book.apply, Book.bury_regions hr, List.length_set]
      | move hr _ _ _ => rw [Book.apply, Book.move_eq hr, List.length_set]

end Blank

/-! ### Names -/

/-- A name as it is shown: up to its first zero byte. -/
def shownName (name : Bytes) : Bytes := name.takeWhile fun b => b ≠ 0

theorem takeWhile_zeros (n : Nat) :
  (Bytes.zeros n).takeWhile (fun b => b ≠ 0) = []
  := by
  cases n with
  | zero => rfl
  | succ n => rw [Bytes.zeros, List.replicate_succ, List.takeWhile_cons_of_neg (by simp)]

/-- The entry of a region shows its name. -/
theorem nameBytes_shown (r : Region) (i : Nat) :
  (r.entry i).nameBytes = shownName r.name
  := by
  change (r.name ++ Bytes.zeros _).takeWhile _ = _
  rw [List.takeWhile_append, takeWhile_zeros, List.append_nil]
  split
  · rename_i hall
    exact (List.takeWhile_prefix _).eq_of_length hall |>.symm
  · rfl

theorem shownName_eq {name : Bytes} (h : 0 ∉ name) :
  shownName name = name
  := by
  apply List.takeWhile_eq_self_iff.mpr
  intro b hb
  rw [decide_eq_true_eq]
  rintro rfl
  exact h hb

/-- The entry of a region whose name has no zero byte tells the name. -/
theorem nameBytes_entry {r : Region} (i : Nat) (h : 0 ∉ r.name) :
  (r.entry i).nameBytes = r.name
  := (nameBytes_shown r i).trans (shownName_eq h)

section Runs

variable {dbg : Bool} {f : Translator τ} {t : τ} {xs : List (Step τ)} {s s' : RegionIpc τ}
  {b : Book} {op : Operation} {cs : List Change} {out : Option Reply} {name : Bytes}

/-- What an operation publishes has a name. -/
theorem Effect.publish_name (h : Effect f s.translator b op cs out) {r : Region}
    (hr : .publish r ∈ cs) :
  r.name ≠ []
  := by
  cases h with
  | stranger _ => cases hr
  | refused _ => cases hr
  | unknown _ => cases hr
  | unregistered _ _ _ => cases List.mem_singleton.mp hr
  | swept => exact absurd hr (publish_not_mem_sweep f s.translator b 0 b.regions r)
  | registered _ hname _ _ _ =>
      cases List.mem_singleton.mp hr
      exact hname
  | stranded _ hname _ _ _ =>
      cases List.mem_singleton.mp hr
      exact hname

/-- Regions keep their names. -/
theorem named_applyAll (hallows : b.AllowsAll cs) (hregions : ∀ r ∈ b.regions, r.name ≠ [])
    (hpublish : ∀ r, .publish r ∈ cs → r.name ≠ []) :
  ∀ r ∈ (b.applyAll cs).regions, r.name ≠ []
  := by
  induction hallows with
  | nil b => exact hregions
  | @cons b c cs hc _ ih =>
      apply ih _ fun r hr => hpublish r (List.mem_cons_of_mem _ hr)
      have hset : ∀ (i : Nat) (r' : Region), r'.name ≠ [] →
          ∀ r ∈ b.regions.set i r', r.name ≠ [] := by
        intro i r' hname r hr
        rcases List.mem_or_eq_of_mem_set hr with hold | rfl
        · exact hregions r hold
        · exact hname
      cases hc with
      | @publish r₁ hcount hpool hoff hdead =>
          intro r hr
          rcases List.mem_append.mp hr with hold | hnew
          · exact hregions r hold
          · obtain rfl := List.mem_singleton.mp hnew
            exact hpublish r List.mem_cons_self
      | @bury i r₁ hr₁ hdead howned =>
          rw [Book.apply, Book.bury_regions hr₁]
          exact hset i r₁.bury (hregions r₁ (List.mem_of_getElem? hr₁))
      | @move i r₁ extents hr₁ hdead howned hfit =>
          rw [Book.apply, Book.move_eq hr₁]
          exact hset i _ (hregions r₁ (List.mem_of_getElem? hr₁))

/-- A book over blank slots. -/
structure Rooted (s : RegionIpc τ) (b : Book) : Prop where
  keeps : s.Keeps b
  blank : Blank b s.manifest.mem

/-- Each operation keeps the slots behind the book blank. -/
theorem Rooted.step (h : Rooted s b) (hallows : b.AllowsAll cs)
    (hdone : Performs dbg f s b op cs out s') :
  Rooted s' (b.applyAll cs)
  := by
  refine ⟨hdone.keeps, ?_⟩
  rw [hdone.manifest]
  apply h.blank.applyAll h.keeps.stored hallows

/-- The start over the zeroed area is blank. -/
theorem rooted_initial (t : τ) :
  Rooted (initial (fun _ => 0) t) (Book.vacant 0)
  := by
  refine ⟨keeps_initial _ t, ?_⟩
  intro i _ _
  have hrun : (initial (fun _ => 0) t).manifest = Slice.writeAll
      ⟨fun _ => 0, manifestTotalSize, []⟩ (Slice.fieldsAt 0 (canonicalHeader 0 0 0).fields) :=
    congrArg Prod.fst (ManifestHeader.run_writeTo (Nat.le_of_ble_eq_true rfl))
  rw [hrun, Slice.writeAll_fieldsAt_mem, entry_write_header]
  rfl

/-- In a run from the zeroed area the book is one over blank slots, all its regions have names, and it
has the regions that live and those that are shown. -/
structure Tells (xs : List (Step τ)) (s : RegionIpc τ) (b : Book) : Prop extends Rooted s b where
  named : ∀ r ∈ b.regions, r.name ≠ []
  living : Regions.living xs = roster false b
  shown : Regions.shown xs = roster true b

theorem Run.tells (hrun : Run dbg f (initial (fun _ => 0) t) xs s) :
  ∃ b, Tells xs s b
  := by
  obtain ⟨b, _, h⟩ := hrun.induct (P := fun xs s b => Tells xs s b)
    ⟨rooted_initial t, fun _ hr => (nomatch hr), rfl, rfl⟩ (by
      rintro xs s s' b op cs out hs ⟨hrooted, hnamed, hliving, hshown⟩ heffect hallows hdone
      refine ⟨hrooted.step hallows hdone, ?_, ?_, ?_⟩
      · exact named_applyAll hallows hnamed fun r hr => heffect.publish_name hr
      · rw [heffect.roster false hs hallows hdone.keeps, ← hliving]
        rfl
      · rw [heffect.roster true hs hallows hdone.keeps, ← hshown]
        rfl)
  exact ⟨b, h⟩

/-! ### Snapshots -/

theorem isLive_blank :
  blankEntry.isLive = true
  := by decide

theorem nameBytes_blank :
  blankEntry.nameBytes = []
  := by decide

/-- The manifest of a book over blank slots passes the checks of the host. -/
theorem Rooted.manifestOk (h : Rooted s b) :
  ManifestOk s.manifest.mem
  := by
  have hs := h.keeps.stored
  constructor
  · rw [hs.listed.header]
    exact hs.headed.validate
  · intro i hi _
    rcases Nat.lt_or_ge i b.regions.length with hlt | hge
    · have hr := List.getElem?_eq_getElem hlt
      obtain ⟨hoff, hn⟩ := extent_range hs hr
      rw [hs.listed.entry i _ hr, hoff, hn, extentCount_eq hs]
      exact hs.sound.inside _ (List.mem_of_getElem? hr)
    · rw [h.blank i hge hi]
      exact Nat.zero_le _

/-- Memory has the manifest area of the server behind a base address. -/
def Mapped (gm : GuestMem) (base : PageBase) (s : RegionIpc τ) : Prop :=
  ∀ a < manifestTotalSize, gm.bytes (base.gpa + offManifest + a) = s.manifest.mem a

section Snapshot

variable {gm : GuestMem} {base : PageBase}

theorem Rooted.even (h : Rooted s b) (hmapped : Mapped gm base s) :
  (ManifestHeader.ofMem (gm.bytes.view (base.gpa + offManifest))).generation % 2 = 0
  := by
  have hheader : ManifestHeader.ofMem s.manifest.mem
      = ManifestHeader.ofMem (gm.bytes.view (base.gpa + offManifest)) :=
    (ofMem_area fun a ha => (hmapped a ha).symm).1
  rw [← hheader, generation_eq h.keeps.stored]
  exact h.keeps.stored.sound.even

/-- The host gets a snapshot of a book over blank slots where it can read the area. -/
theorem Rooted.readManifest_eq (h : Rooted s b) (dbg : Bool) (hmapped : Mapped gm base s)
    (hgen : gm.readErr (base.gpa + (offManifest + offGeneration)) 8 = none)
    (harea : gm.readErr (base.gpa + offManifest) manifestTotalSize = none) :
  Host.readManifest dbg gm base = .ok (manifestOf s.manifest.mem)
  := by
  have hagree : ∀ a < manifestTotalSize,
      s.manifest.mem a = gm.bytes.view (base.gpa + offManifest) a := fun a ha => (hmapped a ha).symm
  obtain ⟨hok, hsame⟩ := manifestOf_congr hagree h.manifestOk
  rw [readManifest_of_ok hgen harea rfl (h.even hmapped) hok, hsame]

/-- A snapshot of a book over blank slots is what the area holds. -/
theorem Rooted.readManifest (h : Rooted s b) {dbg : Bool} {manifest : RegionManifest}
    (hmapped : Mapped gm base s) (hread : Host.readManifest dbg gm base = .ok manifest) :
  manifest = manifestOf s.manifest.mem
  := by
  cases hgen : gm.readErr (base.gpa + (offManifest + offGeneration)) 8 with
  | some e =>
      rw [Host.readManifest, seqlockRetries, retryManifest, readAttempt, GuestMem.readU64,
        GuestMem.read, hgen] at hread
      cases hread
  | none =>
      cases harea : gm.readErr (base.gpa + offManifest) manifestTotalSize with
      | some e =>
          rw [readManifest_of_refused hgen harea (h.even hmapped)] at hread
          cases hread
      | none =>
          rw [h.readManifest_eq dbg hmapped hgen harea] at hread
          exact (Res.ok.inj hread).symm

end Snapshot

/-- The entries of the manifest: those of the regions, and blank ones behind them. -/
theorem Rooted.entries (h : Rooted s b) :
  (manifestOf s.manifest.mem).entries = (b.regions.zipIdx).map (fun x => x.1.entry x.2)
    ++ List.replicate (regionCapacity - b.regions.length) blankEntry
  := by
  have hs := h.keeps.stored
  have hle := hs.sound.count
  apply List.ext_getElem?
  intro i
  rw [manifestOf, List.getElem?_map, List.getElem?_append, List.length_map, List.length_zipIdx]
  split
  · rename_i hlt
    have hr := List.getElem?_eq_getElem hlt
    rw [List.getElem?_range (by omega), List.getElem?_map, List.getElem?_zipIdx, hr, Nat.zero_add]
    exact congrArg some (hs.listed.entry i _ hr)
  · rename_i hge
    rw [List.getElem?_replicate]
    split
    · rw [List.getElem?_range (by omega)]
      exact congrArg some (h.blank i (by omega) (by omega))
    · rw [List.getElem?_eq_none (by rw [List.length_range]; omega)]
      rfl

/-- The first region of a book that is shown under a name, with its slot. -/
def Book.shownAs (b : Book) (name : Bytes) : Option (Region × Nat) :=
  (b.regions.zipIdx).find? fun x => !x.1.dead && decide (shownName x.1.name = name)

theorem shownAs_eq_some {r : Region} {i : Nat} (h : Book.shownAs b name = some (r, i)) :
  b.regions[i]? = some r ∧ r.dead = false ∧ shownName r.name = name
  := by
  have hhit := List.find?_some h
  rw [Bool.and_eq_true, Bool.not_eq_true', decide_eq_true_eq] at hhit
  exact ⟨List.mk_mem_zipIdx_iff_getElem?.mp (List.mem_of_find?_eq_some h), hhit⟩

theorem find_roster (b : Book) (name : Bytes) :
  (roster true b).find? (fun reg => decide (shownName reg.name = name))
    = (Book.shownAs b name).map fun x => registration x.1 x.2
  := by
  rw [roster, rosterFrom, List.find?_map, List.find?_filter, Book.shownAs]
  congr 2
  funext x
  simp [isListed, registration]

/-- The look-up finds the entry of the first region that is shown under the name, or for the empty
name a blank entry. -/
theorem Rooted.find (h : Rooted s b) (name : Bytes) :
  (manifestOf s.manifest.mem).entries.find? (fun e => e.isLive && e.nameBytes = name)
    = ((Book.shownAs b name).map fun x => x.1.entry x.2).or
        (if b.regions.length < regionCapacity ∧ name = [] then some blankEntry else none)
  := by
  rw [h.entries, List.find?_append, List.find?_map]
  congr 1
  · congr 2
    funext x
    rw [Function.comp_apply, Region.entry_isLive, nameBytes_shown]
  · rw [List.find?_replicate, isLive_blank, nameBytes_blank]
    by_cases hroom : b.regions.length < regionCapacity
    · rw [if_neg (by omega)]
      by_cases hname : name = []
      · rw [hname, if_pos (by rfl)]
        exact (if_pos ⟨hroom, rfl⟩).symm
      · rw [if_neg (by simpa using Ne.symm hname)]
        exact (if_neg fun hboth => hname hboth.2).symm
    · rw [if_pos (by omega)]
      exact (if_neg fun hboth => hroom hboth.1).symm

/-- A look-up of a region that the book lists finds its extents. -/
theorem Rooted.getRange (h : Rooted s b) {i : Nat} {r : Region} (hr : b.regions[i]? = some r) :
  getRange (manifestOf s.manifest.mem).extents (r.entry i).extentOff.toNat (r.entry i).extentN.toNat
    = some r.extents
  := by
  have hs := h.keeps.stored
  obtain ⟨hoff, hn⟩ := extent_range hs hr
  have hinside := hs.sound.inside r (List.mem_of_getElem? hr)
  have hpool := extentCount_eq hs
  have hlong : r.extentOff + r.extents.length ≤ (manifestOf s.manifest.mem).extents.length := by
    rw [manifestOf, List.length_map, List.length_range, hpool]
    exact hinside
  rw [hoff, hn, Host.getRange, if_pos hlong]
  congr 1
  apply List.ext_getElem?
  intro k
  rw [List.getElem?_take]
  split
  · rename_i hk
    have hx := List.getElem?_eq_getElem hk
    rw [List.getElem?_drop, manifestOf, List.getElem?_map,
      List.getElem?_range (by rw [hpool]; omega), Option.map_some, hx,
      hs.listed.extent i r hr k _ hx]
  · rename_i hk
    exact (List.getElem?_eq_none (Nat.not_lt.mp hk)).symm

/-- A name resolves to the live region whose entry is found. -/
theorem Rooted.resolve_of_find (h : Rooted s b) {i : Nat} {r : Region} (hr : b.regions[i]? = some r)
    (hdead : r.dead = false) (hfind : (manifestOf s.manifest.mem).entries.find?
      (fun e => e.isLive && e.nameBytes = name) = some (r.entry i)) :
  (manifestOf s.manifest.mem).resolve name = some
    { regionId := UInt32.ofNat i, layoutVersion := r.layoutVersion, len := r.len
      flags := r.flags, extents := r.extents }
  := by
  rw [RegionManifest.resolve, hfind]
  change (Host.getRange _ (r.entry i).extentOff.toNat (r.entry i).extentN.toNat).bind _ = _
  rw [h.getRange hr, Option.bind_some, Region.entry, hdead]
  rfl

/-- A name resolves to a region that lives under it, as it was registered, with the extents that the
ledger has for it. -/
def Resolves (s : RegionIpc τ) (regs : List Registration) (name : Bytes) (region : ResolvedRegion) :
    Prop :=
  ∃ reg ∈ regs, reg.name = name ∧ region.regionId = reg.regionId ∧
    region.layoutVersion = reg.layoutVersion ∧ region.len = reg.len ∧ region.flags = reg.flags ∧
      ∃ record ∈ s.records, record.regionId = reg.regionId ∧ record.dead = false ∧
        region.extents = record.extents

/-- A name resolves exactly when a region lives under it, and then to such a region. -/
def ResolvesExactly (manifest : RegionManifest) (s : RegionIpc τ) (regs : List Registration)
    (name : Bytes) : Prop :=
  ((manifest.resolve name).isSome = true ↔ ∃ reg ∈ regs, reg.name = name) ∧
    ∀ region, manifest.resolve name = some region → Resolves s regs name region

/-- A name that shows a region resolves exactly when the region lives under the name. -/
theorem Rooted.resolve_shown (h : Rooted s b) {r : Region} {i : Nat}
    (hshown : Book.shownAs b name = some (r, i)) :
  ResolvesExactly (manifestOf s.manifest.mem) s (roster false b) name ↔
    (registration r i).name = name ∧ registration r i ∈ roster false b
  := by
  obtain ⟨hr, hdead, _⟩ := shownAs_eq_some hshown
  have hfind := h.find name
  rw [hshown, Option.map_some, Option.some_or] at hfind
  have hresolve := h.resolve_of_find hr hdead hfind
  rw [ResolvesExactly, hresolve]
  constructor
  · rintro ⟨_, hregion⟩
    obtain ⟨reg, hreg, hname, hid, _⟩ := hregion _ rfl
    obtain ⟨j, r', hr', _, rfl⟩ := mem_roster.mp hreg
    have hsound := h.keeps.stored.sound
    obtain rfl : i = j := by
      rw [← (hsound.toNat_slot hr).1, ← (hsound.toNat_slot hr').1]
      exact congrArg UInt32.toNat hid
    obtain rfl := Option.some.inj (hr.symm.trans hr')
    exact ⟨hname, hreg⟩
  · rintro ⟨hname, hreg⟩
    refine ⟨⟨fun _ => ⟨_, hreg, hname⟩, fun _ => rfl⟩, ?_⟩
    intro region heq
    obtain ⟨j, r', hr', hlisted, hsame⟩ := mem_roster.mp hreg
    have hsound := h.keeps.stored.sound
    obtain rfl : i = j := by
      rw [← (hsound.toNat_slot hr).1, ← (hsound.toNat_slot hr').1]
      exact congrArg (fun reg => reg.regionId.toNat) hsame
    obtain rfl := Option.some.inj (hr.symm.trans hr')
    have howned : r.owned = true := by
      rw [isListed, Bool.false_or, Bool.and_eq_true] at hlisted
      exact hlisted.1
    rw [← Option.some.inj heq]
    refine ⟨registration r i, hreg, hname, rfl, rfl, rfl, rfl, r.record i, ?_, rfl, hdead, rfl⟩
    rw [h.keeps.records]
    exact Book.mem_ledger.mpr ⟨i, r, hr, howned, rfl⟩

/-- A blank entry resolves to an empty region. -/
theorem Rooted.resolve_blank (h : Rooted s b) (hshown : Book.shownAs b [] = none)
    (hroom : b.regions.length < regionCapacity) :
  ((manifestOf s.manifest.mem).resolve []).isSome = true
  := by
  have hfind := h.find []
  rw [hshown, Option.map_none, Option.none_or, if_pos ⟨hroom, rfl⟩] at hfind
  have hrange : Host.getRange (manifestOf s.manifest.mem).extents
      blankEntry.extentOff.toNat blankEntry.extentN.toNat = some [] := by
    have hoff : blankEntry.extentOff.toNat = 0 := by decide
    have hn : blankEntry.extentN.toNat = 0 := by decide
    rw [hoff, hn, Host.getRange, if_pos (Nat.zero_le _), List.take_zero]
  rw [RegionManifest.resolve, hfind, Option.bind_eq_bind, Option.bind_some, hrange]
  rfl

/-- A name that shows no region resolves exactly when no unused slot shows it and no region lives
under it. -/
theorem Tells.resolve_hidden (h : Tells xs s b) (hshown : Book.shownAs b name = none) :
  ResolvesExactly (manifestOf s.manifest.mem) s (roster false b) name ↔
    (name ≠ [] ∨ b.regions.length = regionCapacity) ∧ ∀ reg ∈ roster false b, reg.name ≠ name
  := by
  by_cases hblank : b.regions.length < regionCapacity ∧ name = []
  · obtain ⟨hroom, rfl⟩ := hblank
    have hsome := h.resolve_blank hshown hroom
    constructor
    · intro hexact
      obtain ⟨reg, hreg, hname⟩ := hexact.1.mp hsome
      obtain ⟨i, r, hr, _, rfl⟩ := mem_roster.mp hreg
      exact absurd hname (h.named r (List.mem_of_getElem? hr))
    · rintro ⟨hname | hfull, _⟩
      · exact absurd rfl hname
      · omega
  · have hfind := h.find name
    rw [hshown, Option.map_none, Option.none_or, if_neg hblank] at hfind
    have hresolve : (manifestOf s.manifest.mem).resolve name = none := by
      rw [RegionManifest.resolve, hfind]
      rfl
    have hcase : name ≠ [] ∨ b.regions.length = regionCapacity := by
      have hle := h.keeps.stored.sound.count
      by_cases hname : name = []
      · right
        have hnot : ¬ b.regions.length < regionCapacity := fun hroom => hblank ⟨hroom, hname⟩
        omega
      · exact Or.inl hname
    rw [ResolvesExactly, hresolve]
    constructor
    · rintro ⟨hiff, _⟩
      exact ⟨hcase, fun reg hreg hname => Bool.false_ne_true (hiff.mpr ⟨reg, hreg, hname⟩)⟩
    · rintro ⟨_, hnone⟩
      refine ⟨⟨fun hsome => absurd hsome Bool.false_ne_true, ?_⟩,
        fun _ heq => absurd heq (Option.some_ne_none _).symm⟩
      rintro ⟨reg, hreg, hname⟩
      exact absurd hname (hnone reg hreg)

/-! ### Looking up in every run -/

/-- A name is not mistaken for another: the first region that is shown under it was registered under
it, with success; or no region is shown under it, neither does an unused slot show it, nor does a
region live under it. -/
def Unmistaken (xs : List (Step τ)) (s : RegionIpc τ) (name : Bytes) : Prop :=
  match (shown xs).find? fun reg => decide (shownName reg.name = name) with
  | some reg => reg.name = name ∧ reg ∈ living xs
  | none =>
      (name ≠ [] ∨ (ManifestHeader.ofMem s.manifest.mem).regionCount.toNat = regionCapacity) ∧
        ∀ reg ∈ living xs, reg.name ≠ name

/-- In every run from the zeroed area a name resolves exactly if and only if it is not mistaken for
another. -/
theorem resolves_exactly_iff (dbg : Bool) (f : Translator τ) (t : τ) (xs : List (Step τ))
    (s : RegionIpc τ) (hrun : Run dbg f (initial (fun _ => 0) t) xs s)
    (gm : GuestMem) (base : PageBase) (hmapped : Mapped gm base s) (dbg' : Bool)
    (manifest : RegionManifest) (hread : readManifest dbg' gm base = .ok manifest) (name : Bytes) :
  ResolvesExactly manifest s (living xs) name ↔ Unmistaken xs s name
  := by
  obtain ⟨b, hb⟩ := hrun.tells
  rw [hb.readManifest hmapped hread, Unmistaken, hb.living, hb.shown, find_roster,
    regionCount_eq hb.keeps.stored]
  cases hshown : Book.shownAs b name with
  | none => exact hb.resolve_hidden hshown
  | some x => exact hb.resolve_shown hshown

/-- Guest memory that refuses nothing, with the manifest area of the server in the channel page at
address zero. -/
def areaMem (s : RegionIpc τ) : GuestMem :=
  { bytes := fun a => s.manifest.mem (a - offManifest)
    readErr := fun _ _ => none
    writeErr := fun _ _ => none }

theorem mapped_areaMem (s : RegionIpc τ) :
  Mapped (areaMem s) { gpa := 0, fits := by decide } s
  := by
  intro a _
  rw [areaMem]
  dsimp only
  rw [Nat.zero_add, Nat.add_sub_cancel_left]

/-- Of two regions that were registered under `a` and `b` and moved since, the first one is taken
back: both names resolve exactly, and `b` to its region. -/
theorem resolves_exactly_iff_left :
  let manifest := manifestOf leftRegion.manifest.mem
  (∃ dbg gm base, readManifest dbg gm base = .ok manifest) ∧
    ResolvesExactly manifest leftRegion (living leftSteps) [0x61] ∧
    ResolvesExactly manifest leftRegion (living leftSteps) [0x62] ∧
    (manifest.resolve [0x62]).map ResolvedRegion.regionId = some 1
  := by
  obtain ⟨b, hb⟩ := run_leftSteps.tells
  have hread := hb.readManifest_eq true (mapped_areaMem leftRegion) rfl rfl
  have hiff := resolves_exactly_iff true wanderingTranslator 0 leftSteps leftRegion run_leftSteps
    _ _ (mapped_areaMem leftRegion) true _ hread
  refine ⟨⟨_, _, _, hread⟩, (hiff _).mpr ?_, (hiff _).mpr ?_, by decide +kernel⟩
  · have hnone : (shown leftSteps).find? (fun reg => decide (shownName reg.name = [0x61])) = none := by
      decide +kernel
    rw [Unmistaken, hnone]
    exact ⟨.inl (by decide), by decide +kernel⟩
  · have hsome : (shown leftSteps).find? (fun reg => decide (shownName reg.name = [0x62]))
        = some ⟨1, [0x62], 2, 1, 0, 0x3000, 0x2000⟩ := by
      decide +kernel
    rw [Unmistaken, hsome]
    exact ⟨rfl, by decide +kernel⟩

/-- The empty manifest in memory is that of the server at the start. -/
theorem mapped_empty :
  Mapped emptyManifestMem { gpa := 0, fits := by decide } (initial (fun _ => 0) ())
  := by
  intro a _
  have hrun : (initial (fun _ => 0) ()).manifest = Slice.writeAll
      ⟨fun _ => 0, manifestTotalSize, []⟩ (Slice.fieldsAt 0 (canonicalHeader 0 0 0).fields) :=
    congrArg Prod.fst (ManifestHeader.run_writeTo (Nat.le_of_ble_eq_true rfl))
  rw [hrun, Slice.writeAll_fieldsAt_mem, emptyManifestMem]
  dsimp only
  rw [Nat.zero_add, Nat.add_sub_cancel_left]
  rfl

/-- In the empty manifest the empty name resolves. -/
theorem resolves_empty_name :
  ¬ ∀ (dbg : Bool) (f : Translator Unit) (xs : List (Step Unit)) (s : RegionIpc Unit),
    Run dbg f (initial (fun _ => 0) ()) xs s → ∀ (gm : GuestMem) (base : PageBase),
      Mapped gm base s → ∀ manifest, readManifest dbg gm base = .ok manifest → ∀ name,
        ResolvesExactly manifest s (living xs) name
  := by
  intro hall
  obtain ⟨manifest, hread⟩ := readManifest_empty true
  have hexact := hall true identityTranslator [] _ .nil _ _ mapped_empty manifest hread []
  have hb := rooted_initial ()
  rw [hb.readManifest mapped_empty hread] at hexact
  obtain ⟨reg, hreg, _⟩ := hexact.1.mp (hb.resolve_blank rfl (by decide))
  cases hreg

end Runs

end Protocol.Regions
