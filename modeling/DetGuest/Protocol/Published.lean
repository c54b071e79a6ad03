import DetGuest.Agent.Translate
import DetGuest.Protocol.Resolve

/-!
# Reading what was published

A workload registers a range of its addresses, the agent translates it and lists the extents in the
manifest, and the host finds the region by its name and reads it.  What it reads are the bytes of
the range, as long as no later operation touches the region.
-/

namespace Protocol.Regions

open Wire Wire.Regionipc Agent Host

variable {τ : Type}

/-! ### The slot of a region -/

/-- A slot holds a region of the ledger that lives, and no region in a lower slot lives under its
name. -/
structure Holds (b : Book) (i : Nat) (r : Region) : Prop where
  slot : b.regions[i]? = some r
  owned : r.owned = true
  dead : r.dead = false
  first : ∀ (j : Nat) (r' : Region), j < i → b.regions[j]? = some r' → r'.dead = false →
    (r'.entry j).nameBytes ≠ r.name

/-- No live entry below a slot has a name. -/
def FirstOf (m : ByteMem) (regionId : UInt32) (name : Bytes) : Prop :=
  ∀ j < regionId.toNat, (RegionEntry.ofMem m j).isLive = true →
    (RegionEntry.ofMem m j).nameBytes ≠ name

/-- A request to register a range is answered with success, where the translator of the agent builds
the extents from a translation of addresses. -/
structure Step.Publishes (x : Step τ) (f : Translator τ) (translate : Translation) (name : Bytes)
    (gva len : UInt64) (reply : Reply) : Prop where
  request : ∃ (flags layoutVersion nameId : UInt32) (pid : Int32) (workloadPid : Option Int32),
    x.op = .request (.register flags layoutVersion nameId gva len name) pid workloadPid ∧
      (f x.before.translator pid gva len).2 = buildExtents translate gva len
  out : x.out = some reply
  status : reply.status = Status.ok.toU16

/-- A step neither unregisters a region nor rewrites it: its record stays in the ledger. -/
def Step.Leaves (x : Step τ) (regionId : UInt32) : Prop :=
  ∀ record ∈ x.before.records, record.regionId = regionId → record ∈ x.after.records

section Slots

variable {dbg : Bool} {f : Translator τ} {t : τ} {s s' : RegionIpc τ} {b : Book} {op : Operation}
  {cs : List Change} {out : Option Reply} {r : Region} {i : Nat} {rs rs' : List Region}

theorem getElem?_of_forall₂ (h : List.Forall₂ Kin rs rs') (hr : rs[i]? = some r) :
  ∃ r', rs'[i]? = some r' ∧ Kin r r'
  := by
  obtain ⟨hi, rfl⟩ := List.getElem?_eq_some_iff.mp hr
  have hi' : i < rs'.length := by rwa [← h.length_eq]
  exact ⟨rs'[i], List.getElem?_eq_getElem hi', h.get hi hi'⟩

/-- Changes keep each region in its slot, under its registration. -/
theorem kin_applyAll (hallows : b.AllowsAll cs) (hr : b.regions[i]? = some r) :
  ∃ r', (b.applyAll cs).regions[i]? = some r' ∧ Kin r r'
  := by
  induction hallows generalizing r with
  | nil b => exact ⟨r, hr, Kin.refl r⟩
  | @cons b c cs hc _ ih =>
      have hone : ∃ r', (b.apply c).regions[i]? = some r' ∧ Kin r r' := by
        cases hc with
        | @publish r₁ hcount hpool hoff hdead =>
            refine ⟨r, ?_, Kin.refl r⟩
            rw [Book.apply, Book.publish, List.getElem?_append_left]
            · exact hr
            · exact (List.getElem?_eq_some_iff.mp hr).1
        | @bury j r₁ hr₁ hdead howned =>
            rw [Book.apply, Book.bury_regions hr₁]
            apply getElem?_of_forall₂ (forall₂_set hr₁ (Kin.bury r₁)) hr
        | @move j r₁ extents hr₁ hdead howned hfit =>
            rw [Book.apply, Book.move_eq hr₁]
            apply getElem?_of_forall₂ (forall₂_set hr₁ (Kin.move r₁ _ _)) hr
      obtain ⟨r₁, hr₁, hkin⟩ := hone
      obtain ⟨r₂, hr₂, hkin'⟩ := ih hr₁
      exact ⟨r₂, hr₂, hkin.trans hkin'⟩

/-- Regions of one name tell the same name in any slots. -/
theorem nameBytes_congr {r r' : Region} (h : r.name = r'.name) (i j : Nat) :
  (r.entry i).nameBytes = (r'.entry j).nameBytes
  := by
  have hpacked : (r.entry i).name.1 = (r'.entry j).name.1 := by
    change r.name ++ Bytes.zeros (maxRegionName - r.name.length)
      = r'.name ++ Bytes.zeros (maxRegionName - r'.name.length)
    rw [h]
  rw [RegionEntry.nameBytes, hpacked, RegionEntry.nameBytes]

/-- A region that is registered with success takes the next slot, as the first of its name. -/
theorem Effect.holds (h : Effect f s.translator b op cs out) (hs : s.Keeps b)
    {translate : Translation} {name : Bytes} {gva len : UInt64} {reply : Reply}
    (hpublishes : (Step.mk s op out s').Publishes f translate name gva len reply)
    (hfirst : FirstOf s.manifest.mem reply.regionId name) :
  ∃ (i : Nat) (r : Region), Holds (b.applyAll cs) i r ∧ reply.regionId = UInt32.ofNat i ∧
    r.name = name ∧ r.len = len ∧ buildExtents translate gva len = .ok r.extents
  := by
  obtain ⟨⟨flags, layoutVersion, nameId, pid, workloadPid, hop, hbuild⟩, hout, hstatus⟩ :=
    hpublishes
  dsimp only at hop hbuild hout
  subst hop hout
  cases h with
  | stranger _ => exact absurd hstatus (by decide)
  | refused hrefusal => exact absurd hstatus (refusal_ne_ok hrefusal)
  | stranded _ _ _ _ _ => exact absurd hstatus (by decide)
  | @registered r hanswer hname howned hallows hgen =>
      have hdead : r.dead = false := by
        cases hallows with
        | publish _ _ _ hdead => exact hdead
      refine ⟨b.regions.length, r, ⟨?_, howned, hdead, ?_⟩, rfl, rfl, rfl, ?_⟩
      · exact List.getElem?_concat_length
      · intro j r' hj hr' hdead'
        have hold : b.regions[j]? = some r' := by
          rw [← hr']
          exact (List.getElem?_append_left hj).symm
        rw [← hs.stored.listed.entry j r' hold]
        apply hfirst j
        · rw [hs.stored.headed.toNat_count]
          exact hj
        · rw [hs.stored.listed.entry j r' hold, Region.entry_isLive, hdead']
          rfl
      · rw [← hbuild, hanswer]

/-- Changes that leave the record of a region in the ledger leave the region in its slot, as the
first of its name. -/
theorem Holds.applyAll (h : Holds b i r) (hs : s.Keeps b) (hallows : b.AllowsAll cs)
    (hs' : s'.Keeps (b.applyAll cs)) (hleaves : r.record i ∈ s.records → r.record i ∈ s'.records) :
  ∃ r', Holds (b.applyAll cs) i r' ∧ r'.record i = r.record i
  := by
  have hmem : r.record i ∈ s'.records := by
    apply hleaves
    rw [hs.records]
    exact Book.mem_ledger.mpr ⟨i, r, h.slot, h.owned, rfl⟩
  rw [hs'.records] at hmem
  obtain ⟨k, r', hr', howned, hrecord⟩ := Book.mem_ledger.mp hmem
  obtain rfl : i = k := by
    have hids : UInt32.ofNat i = UInt32.ofNat k := congrArg RegionRecord.regionId hrecord
    rw [← (hs.stored.sound.toNat_slot h.slot).1, hids, (hs'.stored.sound.toNat_slot hr').1]
  have hname : r.name = r'.name := congrArg RegionRecord.name hrecord
  have hdead : r.dead = r'.dead := congrArg RegionRecord.dead hrecord
  refine ⟨r', ⟨hr', howned, hdead.symm.trans h.dead, ?_⟩, hrecord.symm⟩
  intro j r₂ hj hr₂ hlive
  have hlt := (List.getElem?_eq_some_iff.mp h.slot).1
  have hr₁ := List.getElem?_eq_getElem (Nat.lt_trans hj hlt)
  obtain ⟨r₃, hr₃, hkin⟩ := kin_applyAll hallows hr₁
  obtain rfl := Option.some.inj (hr₃.symm.trans hr₂)
  have hold : (b.regions[j]).dead = false := by
    rw [← Bool.not_eq_true]
    intro hgone
    rw [hkin.dead hgone] at hlive
    cases hlive
  have hsame : r₃.name = (b.regions[j]).name :=
    congrArg (fun reg => (reg 0).name) hkin.registration
  rw [nameBytes_congr hsame j j, ← hname]
  exact h.first j _ hj hr₁ hold

/-- In a run from the zeroed area a region stays in its slot from its registration on, when the
later steps leave it. -/
theorem Run.holds {translate : Translation} {later earlier : List (Step τ)} {x : Step τ}
    {name : Bytes} {gva len : UInt64} {reply : Reply}
    (hrun : Run dbg f (initial (fun _ => 0) t) (later ++ x :: earlier) s)
    (hpublishes : x.Publishes f translate name gva len reply)
    (hfirst : FirstOf x.before.manifest.mem reply.regionId name)
    (hleaves : ∀ y ∈ later, y.Leaves reply.regionId) :
  ∃ (b : Book) (i : Nat) (r : Region), Rooted s b ∧ Holds b i r ∧
    r.name = name ∧ r.len = len ∧ buildExtents translate gva len = .ok r.extents
  := by
  obtain ⟨b, _, hrooted, hholds⟩ := hrun.induct (P := fun xs s b => Rooted s b ∧
    ∀ later, xs = later ++ x :: earlier → (∀ y ∈ later, y.Leaves reply.regionId) →
      ∃ (i : Nat) (r : Region), Holds b i r ∧ reply.regionId = UInt32.ofNat i ∧
        r.name = name ∧ r.len = len ∧ buildExtents translate gva len = .ok r.extents)
    ⟨rooted_initial t, fun later hnil => absurd hnil (by simp)⟩ (by
      rintro xs s s' b op cs out hs ⟨hrooted, hholds⟩ heffect hallows hdone
      refine ⟨hrooted.step hallows hdone, ?_⟩
      intro later heq hleaves
      cases later with
      | nil =>
          obtain ⟨rfl, rfl⟩ := List.cons.inj heq
          exact heffect.holds hs hpublishes hfirst
      | cons y later =>
          obtain ⟨rfl, rfl⟩ := List.cons.inj heq
          obtain ⟨i, r, hslot, hid, hname, hlen, hextents⟩ :=
            hholds later rfl fun y hy => hleaves y (List.mem_cons_of_mem _ hy)
          obtain ⟨r', hslot', hrecord⟩ := hslot.applyAll hs hallows hdone.keeps fun hmem =>
            hleaves _ List.mem_cons_self _ hmem hid.symm
          refine ⟨i, r', hslot', hid, ?_, ?_, ?_⟩
          · rw [← hname]
            exact congrArg RegionRecord.name hrecord
          · rw [← hlen]
            exact congrArg RegionRecord.len hrecord
          · rw [hextents]
            exact congrArg _ (congrArg RegionRecord.extents hrecord).symm)
  obtain ⟨i, r, hslot, _, hrest⟩ := hholds later rfl hleaves
  exact ⟨b, i, r, hrooted, hslot, hrest⟩

end Slots

/-! ### Reading -/

/-- Memory lets the host read the manifest, and all bytes that a translation yields. -/
structure Readable (gm : GuestMem) (base : PageBase) (translate : Translation) : Prop where
  generation : gm.readErr (base.gpa + (offManifest + offGeneration)) 8 = none
  area : gm.readErr (base.gpa + offManifest) manifestTotalSize = none
  mapped : ∀ a n, (∀ k < n, ∃ v g, translate v = .ok g ∧ g.toNat = a + k) → gm.readErr a n = none

section Reading

variable {s : RegionIpc τ} {b : Book} {r : Region} {i : Nat} {gm : GuestMem} {base : PageBase}
  {translate : Translation} {gva len offset : UInt64} {n : Nat}

/-- A name resolves to the region that is held in a slot as the first of its name. -/
theorem Holds.resolve (h : Holds b i r) (hrooted : Rooted s b) (hnul : 0 ∉ r.name) :
  ∃ region, (manifestOf s.manifest.mem).resolve r.name = some region ∧ region.len = r.len ∧
    region.extents = r.extents
  := by
  have hs := hrooted.keeps.stored
  have hfind : (manifestOf s.manifest.mem).entries.find?
      (fun e => e.isLive && e.nameBytes = r.name) = some (r.entry i) := by
    rw [← hs.listed.entry i r h.slot, manifestOf, List.find?_map]
    refine Option.map_eq_some_iff.mpr ⟨i, ?_, rfl⟩
    rw [List.find?_range_eq_some]
    refine ⟨?_, List.mem_range.mpr (hs.sound.toNat_slot h.slot).2, ?_⟩
    · rw [Function.comp_apply, hs.listed.entry i r h.slot, Region.entry_isLive, h.dead,
        nameBytes_entry i hnul]
      simp
    · intro j hj
      have hlt := (List.getElem?_eq_some_iff.mp h.slot).1
      have hr' := List.getElem?_eq_getElem (Nat.lt_trans hj hlt)
      rw [Function.comp_apply, hs.listed.entry j _ hr', Region.entry_isLive]
      cases hdead : (b.regions[j]).dead with
      | true => rfl
      | false =>
          rw [decide_eq_false (h.first j _ hj hr' hdead)]
          rfl
  exact ⟨_, hrooted.resolve_of_find h.slot h.dead hfind, rfl, rfl⟩

/-- The extents of a range cover it with addresses that its translation yields. -/
theorem regionOk_of_built (hreads : Readable gm base translate) {region : ResolvedRegion}
    (hbuilt : Built (physical translate gva) region.len.toNat region.extents)
    (hinside : offset.toNat + n ≤ region.len.toNat) :
  RegionOk gm region offset n
  := by
  have hlen := UInt64.toNat_lt region.len
  refine ⟨by omega, hinside, ?_, ?_, ?_⟩
  · rw [hbuilt.total]
    exact hlen
  · rw [hbuilt.total]
  · intro p hp
    have hyields : ∀ j < p.len, ∃ v g, translate v = .ok g ∧ g.toNat = p.first + j := by
      intro j hj
      obtain ⟨k, hk, haddr⟩ := Runs.addr_of_mem_slice hp hj
      rw [hbuilt.addr _ (by omega), physical] at haddr
      split at haddr
      · rename_i g hg
        exact ⟨_, g, hg, Option.some.inj haddr⟩
      · cases haddr
    obtain ⟨v, g, _, hg⟩ := hyields 0 (Runs.pos_of_mem_slice hp)
    have hlt := UInt64.toNat_lt g
    exact ⟨by omega, hreads.mapped _ _ hyields⟩

/-- A reading of a region that is built of a range yields the bytes of the range. -/
theorem filled_of_built {extents : List Extent}
    (hbuilt : Built (physical translate gva) len.toNat extents)
    (hinside : offset.toNat + n ≤ len.toNat) {k : Nat} (hk : k < n) :
  ∃ g, translate (gva + offset + UInt64.ofNat k) = .ok g ∧
    (piecesBytes gm (Runs.slice (runsOf extents) offset.toNat n))[k]? = some (gm.bytes g.toNat)
  := by
  have hsum : gva + UInt64.ofNat (offset.toNat + k) = gva + offset + UInt64.ofNat k := by
    rw [UInt64.ofNat_add, UInt64.ofNat_toNat, UInt64.add_assoc]
  have haddr := hbuilt.addr (offset.toNat + k) (by omega)
  have hsome : (Runs.addr (runsOf extents) (offset.toNat + k)).isSome := by
    rw [Runs.isSome_addr, hbuilt.total]
    omega
  rw [getElem?_piecesBytes, Runs.addr_slice, if_pos hk]
  rw [haddr, physical, hsum] at hsome ⊢
  cases htr : translate (gva + offset + UInt64.ofNat k) with
  | error e =>
      rw [htr] at hsome
      cases hsome
  | ok g => exact ⟨g, rfl, rfl⟩

/-- After a registration that succeeds, and later steps that leave the region, the host reads the
region by its name at any range of it, and gets the bytes at the physical addresses of the range. -/
theorem publication_reads (dbg : Bool) (f : Translator τ) (t : τ) (translate : Translation)
    (haff : Affine translate) (later earlier : List (Step τ)) (x : Step τ) (s : RegionIpc τ)
    (hrun : Run dbg f (initial (fun _ => 0) t) (later ++ x :: earlier) s) (name : Bytes)
    (gva len : UInt64) (reply : Reply) (hpublishes : x.Publishes f translate name gva len reply)
    (hnul : 0 ∉ name) (hfirst : FirstOf x.before.manifest.mem reply.regionId name)
    (hleaves : ∀ y ∈ later, y.Leaves reply.regionId) (gm : GuestMem) (base : PageBase)
    (hmapped : Mapped gm base s) (hreads : Readable gm base translate) (dbg' : Bool)
    (offset : UInt64) (buf : Bytes) (hinside : offset.toNat + buf.length ≤ len.toNat) :
  let out := (readRegion dbg' gm base name offset).run { filled := [], remaining := buf }
  out.2 = .ok () ∧ out.1.remaining = [] ∧ out.1.filled.length = buf.length ∧
    ∀ k < buf.length, ∃ g, translate (gva + offset + UInt64.ofNat k) = .ok g ∧
      out.1.filled[k]? = some (gm.bytes g.toNat)
  := by
  obtain ⟨b, i, r, hrooted, hslot, rfl, hlen, hextents⟩ := hrun.holds hpublishes hfirst hleaves
  have hbuilt : Built (physical translate gva) len.toNat r.extents := by
    have hdecomposed := buildExtents_decomposed haff (buildExtents_fits hextents)
    rw [hextents] at hdecomposed
    exact hdecomposed
  have hread := hrooted.readManifest_eq dbg' hmapped hreads.generation hreads.area
  obtain ⟨region, hresolve, hregion, hsame⟩ := hslot.resolve hrooted hnul
  rw [hlen] at hregion
  rw [← hregion, ← hsame] at hbuilt
  rw [← hregion] at hinside
  have hok : RegionOk gm region offset buf.length := regionOk_of_built hreads hbuilt hinside
  have hfilled : (piecesBytes gm
      (Runs.slice (runsOf region.extents) offset.toNat buf.length)).length = buf.length := by
    rw [length_piecesBytes, Runs.total_slice]
    rw [hbuilt.total]
    exact hinside
  intro out
  have hout : out = _ := run_readRegion_of_ok hread hresolve hok
  rw [hout]
  exact ⟨rfl, rfl, hfilled, fun k hk => filled_of_built hbuilt hinside hk⟩

/-- Two pages that lie apart in physical memory. -/
def pagedTranslation : Translation := fun v =>
  if v.toNat / 4096 = 1 then .ok (v + 0x8000)
  else if v.toNat / 4096 = 2 then .ok (v + 0x3000)
  else .error .io

theorem affine_paged :
  Affine pagedTranslation
  := by
  intro v w g hpage hg
  rw [pagedTranslation] at hg ⊢
  rw [← hpage]
  have hv := UInt64.toNat_lt v
  have hw := UInt64.toNat_lt w
  split at hg
  · rename_i hone
    obtain rfl := Except.ok.inj hg
    refine ⟨w + 0x8000, if_pos hone, ?_⟩
    rw [UInt64.toNat_add, UInt64.toNat_add]
    simp only [UInt64.reduceToNat]
    omega
  · rename_i hone
    split at hg
    · rename_i htwo
      obtain rfl := Except.ok.inj hg
      refine ⟨w + 0x3000, by rw [if_neg hone, if_pos htwo], ?_⟩
      rw [UInt64.toNat_add, UInt64.toNat_add]
      simp only [UInt64.reduceToNat]
      omega
    · cases hg

/-- The extents of a range across both pages. -/
def pagedExtents : List Extent := [⟨0x9800, 0x800⟩, ⟨0x5000, 0x800⟩]

theorem buildExtents_paged :
  buildExtents pagedTranslation 0x1800 0x1000 = .ok pagedExtents
  := by
  have hlast : buildLoop pagedTranslation 0x2800 0 pagedExtents = .ok pagedExtents := by
    rw [buildLoop, dif_neg (by decide)]
  have hsecond : buildLoop pagedTranslation 0x2000 0x800 [⟨0x9800, 0x800⟩] = .ok pagedExtents := by
    rw [buildLoop, dif_pos (by decide)]
    exact hlast
  rw [buildExtents, buildLoop, dif_pos (by decide)]
  exact hsecond

/-- A translator that finds each range across both pages. -/
def pagedTranslator : Translator Unit := fun _ _ _ _ => ((), .ok pagedExtents)

/-- The server over the zeroed area. -/
def pagedStart : RegionIpc Unit := initial (fun _ => 0) ()

/-- A request for the range across both pages, under the name `a`. -/
def pagedRequest : Request := .register 0 1 1 0x1800 0x1000 [0x61]

/-- A datagram with the request. -/
def pagedDatagram : Bytes :=
  [0x44, 0x47, 0x52, 0x52, 1, 0, 1, 0, 0, 0, 0, 0, 1, 0, 0, 0, 1, 0, 0, 0, 0, 0x18, 0, 0, 0, 0, 0,
    0, 0, 0x10, 0, 0, 0, 0, 0, 0, 1, 0, 0x61]

/-- The server behind the registration. -/
def pagedRegion : RegionIpc Unit :=
  performed pagedTranslator (.request pagedRequest 7 (some 7)) pagedStart

/-- The registration. -/
def pagedStep : Step Unit :=
  ⟨pagedStart, .request pagedRequest 7 (some 7), some ⟨Status.ok.toU16, 0, 1, 2⟩, pagedRegion⟩

/-- The server behind another registration, under the name `b`. -/
def pagedSibling : RegionIpc Unit :=
  performed pagedTranslator (.request siblingRequest 7 (some 7)) pagedRegion

/-- The server behind a sweep that finds both regions where they were. -/
def pagedEnd : RegionIpc Unit := performed pagedTranslator .reverify pagedSibling

/-- What happens behind the registration. -/
def pagedLater : List (Step Unit) :=
  [⟨pagedSibling, .reverify, none, pagedEnd⟩,
    ⟨pagedRegion, .request siblingRequest 7 (some 7), some ⟨Status.ok.toU16, 1, 2, 4⟩, pagedSibling⟩]

theorem run_paged :
  Run true pagedTranslator pagedStart (pagedLater ++ [pagedStep]) pagedEnd
  := by
  refine .step (.step (.step .nil ⟨pagedDatagram, rfl⟩ ?_) ⟨siblingDatagram, rfl⟩ ?_) trivial ?_
  · exact Prod.ext rfl (by decide +kernel)
  · exact Prod.ext rfl (by decide +kernel)
  · exact Prod.ext rfl (by decide +kernel)

/-- The page of the channel. -/
def pagedBase : PageBase := { gpa := 0x100000, fits := by decide }

/-- Memory with the manifest area behind the base, whose bytes below it tell their page. -/
def pagedMem : GuestMem :=
  { bytes := fun a =>
      if a < 0x100000 then UInt8.ofNat (a / 4096)
      else pagedEnd.manifest.mem (a - (0x100000 + offManifest))
    readErr := fun _ _ => none
    writeErr := fun _ _ => none }

theorem mapped_paged :
  Mapped pagedMem pagedBase pagedEnd
  := by
  intro a _
  rw [pagedMem, pagedBase]
  dsimp only
  rw [if_neg (by omega), Nat.add_sub_cancel_left]

/-- The bytes across the end of the first page. -/
theorem bytes_paged {k : Nat} (hk : k < 4) {g : UInt64}
    (h : pagedTranslation (0x1800 + 0x7FE + UInt64.ofNat k) = .ok g) :
  some (pagedMem.bytes g.toNat) = ([9, 9, 5, 5] : Bytes)[k]?
  := by
  match k, hk with
  | 0, _ | 1, _ | 2, _ | 3, _ =>
      obtain rfl := Except.ok.inj h
      rfl

/-- Behind another registration and a sweep, four bytes of the range are read across its pages. -/
theorem publication_reads_sample :
  let out := (readRegion true pagedMem pagedBase [0x61] 0x7FE).run
    { filled := [], remaining := [0, 0, 0, 0] }
  out.2 = .ok () ∧ out.1.filled = [9, 9, 5, 5] ∧
    ∀ k < 4, ∃ g, pagedTranslation (0x1800 + 0x7FE + UInt64.ofNat k) = .ok g ∧
      out.1.filled[k]? = some (pagedMem.bytes g.toNat)
  := by
  have hpublishes : pagedStep.Publishes pagedTranslator pagedTranslation [0x61] 0x1800 0x1000
      ⟨Status.ok.toU16, 0, 1, 2⟩ :=
    ⟨⟨0, 1, 1, 7, some 7, rfl, buildExtents_paged.symm⟩, rfl, rfl⟩
  have hleaves : ∀ y ∈ pagedLater, y.Leaves 0 := by
    intro y hy
    simp only [pagedLater, List.mem_cons, List.not_mem_nil, or_false] at hy
    rcases hy with rfl | rfl <;> rw [Step.Leaves] <;> decide +kernel
  obtain ⟨hok, _, hlength, hbytes⟩ := publication_reads true pagedTranslator () pagedTranslation
    affine_paged pagedLater [] pagedStep pagedEnd run_paged [0x61] 0x1800 0x1000 _ hpublishes
    (by decide) (fun j hj => absurd hj (Nat.not_lt_zero j)) hleaves pagedMem pagedBase mapped_paged
    ⟨rfl, rfl, fun _ _ _ => rfl⟩ true 0x7FE [0, 0, 0, 0] (by decide)
  refine ⟨hok, ?_, hbytes⟩
  apply List.ext_getElem?
  intro k
  by_cases hk : k < 4
  · obtain ⟨g, htranslate, hget⟩ := hbytes k hk
    exact hget.trans (bytes_paged hk htranslate)
  · rw [List.getElem?_eq_none (by rw [hlength]; exact Nat.not_lt.mp hk),
      List.getElem?_eq_none (Nat.not_lt.mp hk)]

end Reading

end Protocol.Regions
