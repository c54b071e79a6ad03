import DetGuest.Agent.Ledger

/-!
# The region server and its manifest

The manifest and the ledger of the server agree: the entries of live regions and the records of
live regions tell the same.  A request changes both or neither, as long as the generation has
32 bits.
-/

namespace Protocol.Regions

open Wire Wire.Regionipc Agent

/-! ### The invariant -/

/-- What an entry of the manifest and a record of the ledger tell about a region. -/
structure Listing where
  regionId : UInt32
  nameId : UInt32
  layoutVersion : UInt32
  gva : UInt64
  len : UInt64
  name : Res EncodeError PackedName
  extents : List Extent

/-- What a record tells. -/
def ofRecord (r : RegionRecord) : Listing :=
  { regionId := r.regionId
    nameId := r.nameId
    layoutVersion := r.layoutVersion
    gva := r.gva
    len := r.len
    name := RegionEntry.packName r.name
    extents := r.extents }

/-- The extents of an entry. -/
def extentsOf (m : ByteMem) (e : RegionEntry) : List Extent :=
  (List.range e.extentN.toNat).map fun k => Extent.ofMem m (e.extentOff.toNat + k)

/-- What an entry tells. -/
def ofEntry (m : ByteMem) (e : RegionEntry) : Listing :=
  { regionId := e.regionId
    nameId := e.nameId
    layoutVersion := e.layoutVersion
    gva := e.gva
    len := e.len
    name := .ok e.name
    extents := extentsOf m e }

/-- The entries below the region count. -/
def entries (m : ByteMem) : List RegionEntry :=
  (List.range (ManifestHeader.ofMem m).regionCount.toNat).map (RegionEntry.ofMem m)

/-- A slot of the pool is among the extents of an entry. -/
def Uses (e : RegionEntry) (k : Nat) : Prop :=
  e.extentOff.toNat ≤ k ∧ k < e.extentOff.toNat + e.extentN.toNat

/-- The manifest is at rest and valid, its live entries have extents of their own in the used
pool, and they are those of the ledger. -/
structure Agrees {τ : Type} (s : RegionIpc τ) : Prop where
  len : s.manifest.len = manifestTotalSize
  even : (ManifestHeader.ofMem s.manifest.mem).generation % 2 = 0
  valid : (ManifestHeader.ofMem s.manifest.mem).validate = .ok ()
  ids : ∀ i < (ManifestHeader.ofMem s.manifest.mem).regionCount.toNat,
    (RegionEntry.ofMem s.manifest.mem i).regionId.toNat = i
  inside : ∀ e ∈ entries s.manifest.mem, e.isLive = true →
    e.extentOff.toNat + e.extentN.toNat
      ≤ (ManifestHeader.ofMem s.manifest.mem).extentCount.toNat
  apart : ∀ e ∈ entries s.manifest.mem, ∀ e' ∈ entries s.manifest.mem, e.isLive = true →
    e'.isLive = true → e.regionId ≠ e'.regionId → ∀ k, Uses e k → ¬ Uses e' k
  listed : (s.records.filter fun r => r.dead = false).map ofRecord
    = ((entries s.manifest.mem).filter fun e => e.isLive).map (ofEntry s.manifest.mem)

/-- A state in which the manifest and the ledger agree is at rest. -/
theorem Agrees.headed {τ : Type} {s : RegionIpc τ} (h : Agrees s) :
  Headed s.manifest (ManifestHeader.ofMem s.manifest.mem).generation
    (ManifestHeader.ofMem s.manifest.mem).regionCount.toNat
    (ManifestHeader.ofMem s.manifest.mem).extentCount.toNat
  := by
  obtain ⟨hmagic, hversion, hcapacity, hcount, hpool⟩ :=
    ManifestHeader.validate_eq_ok.mp h.valid
  refine ⟨h.len, ?_, hcount, hpool, h.even⟩
  apply ManifestHeader.ext
  · exact hmagic
  · exact hversion
  · apply UInt16.toNat_inj.mp
    rw [hcapacity]
    rfl
  · rfl
  · exact UInt32.ofNat_toNat.symm
  · exact UInt32.ofNat_toNat.symm

/-! ### Books give the invariant -/

section Books

variable {τ : Type} {s : RegionIpc τ} {b : Book} {m : Slice} {r : Region} {i : Nat}

theorem regionCount_eq (h : b.Stored m) :
  (ManifestHeader.ofMem m.mem).regionCount.toNat = b.regions.length
  := by
  rw [h.listed.header, Book.header, canonicalHeader]
  exact h.headed.toNat_count

theorem extentCount_eq (h : b.Stored m) :
  (ManifestHeader.ofMem m.mem).extentCount.toNat = b.pool
  := by
  rw [h.listed.header, Book.header, canonicalHeader]
  exact h.headed.toNat_pool

theorem generation_eq (h : b.Stored m) :
  (ManifestHeader.ofMem m.mem).generation = b.generation
  := h.headed.generation

/-- The entries are those of the regions of the book. -/
theorem entries_eq (h : b.Stored m) :
  entries m.mem = b.regions.zipIdx.map fun x => x.1.entry x.2
  := by
  rw [entries, regionCount_eq h]
  apply List.ext_getElem?
  intro i
  rw [List.getElem?_map, List.getElem?_map, List.getElem?_zipIdx]
  rcases Nat.lt_or_ge i b.regions.length with hlt | hge
  · have hr := List.getElem?_eq_getElem hlt
    rw [List.getElem?_range hlt, hr]
    simp only [Option.map_some, Nat.zero_add]
    rw [h.listed.entry i _ hr]
  · rw [List.getElem?_eq_none hge, List.getElem?_eq_none (by rw [List.length_range]; exact hge)]
    rfl

theorem ledgerFrom_eq {n : Nat} {rs : List Region} (howned : ∀ r ∈ rs, r.owned = true) :
  Book.ledgerFrom n rs = (rs.zipIdx n).map fun x => x.1.record x.2
  := by
  induction rs generalizing n with
  | nil => rfl
  | cons r rs ih =>
      rw [Book.ledgerFrom, if_pos (howned r List.mem_cons_self), List.zipIdx_cons, List.map_cons,
        ih fun r hr => howned r (List.mem_cons_of_mem _ hr)]

/-- An entry of a book tells the place of its extents. -/
theorem extent_range (h : b.Stored m) (hr : b.regions[i]? = some r) :
  (r.entry i).extentOff.toNat = r.extentOff ∧ (r.entry i).extentN.toNat = r.extents.length
  := by
  have hend := h.sound.extents_le hr
  constructor
  · exact Word.toNat_ofNat_le (Nat.le_trans (Nat.le_add_right ..) hend) (by decide)
  · exact Book.entry_extentN h.sound hr

theorem extentsOf_eq (h : b.Stored m) (hr : b.regions[i]? = some r) :
  extentsOf m.mem (r.entry i) = r.extents
  := by
  obtain ⟨hoff, hn⟩ := extent_range h hr
  rw [extentsOf, hoff, hn]
  apply List.ext_getElem?
  intro k
  rw [List.getElem?_map]
  rcases Nat.lt_or_ge k r.extents.length with hlt | hge
  · have hx := List.getElem?_eq_getElem hlt
    rw [List.getElem?_range hlt, hx, Option.map_some, h.listed.extent i r hr k _ hx]
  · rw [List.getElem?_eq_none hge, List.getElem?_eq_none (by rw [List.length_range]; exact hge)]
    rfl

/-- The record of a region and its entry tell the same. -/
theorem ofRecord_eq (h : b.Stored m) (hr : b.regions[i]? = some r) :
  ofRecord (r.record i) = ofEntry m.mem (r.entry i)
  := by
  have hname : RegionEntry.packName (r.record i).name = .ok r.packed := packName_packed r
  rw [ofRecord, ofEntry, extentsOf_eq h hr, hname]
  rfl

theorem mem_entries (h : b.Stored m) {e : RegionEntry} (he : e ∈ entries m.mem) :
  ∃ (i : Nat) (r : Region), b.regions[i]? = some r ∧ e = r.entry i
  := by
  rw [entries_eq h] at he
  obtain ⟨x, hx, rfl⟩ := List.mem_map.mp he
  exact ⟨x.2, x.1, List.mem_zipIdx_iff_getElem?.mp hx, rfl⟩

/-- A server that keeps a book whose regions it all owns agrees with its manifest. -/
theorem agrees_of_keeps (h : s.Keeps b) (howned : ∀ r ∈ b.regions, r.owned = true) :
  Agrees s
  := by
  have hs := h.stored
  constructor
  · exact hs.len
  · rw [generation_eq hs]
    exact hs.sound.even
  · rw [hs.listed.header]
    exact hs.headed.validate
  · intro i hi
    rw [regionCount_eq hs] at hi
    have hr := List.getElem?_eq_getElem hi
    rw [hs.listed.entry i _ hr]
    exact (hs.sound.toNat_slot hr).1
  · intro e he _
    obtain ⟨i, r, hr, rfl⟩ := mem_entries hs he
    obtain ⟨hoff, hn⟩ := extent_range hs hr
    rw [hoff, hn, extentCount_eq hs]
    exact hs.sound.inside r (List.mem_of_getElem? hr)
  · intro e he e' he' _ _ hids k huse huse'
    obtain ⟨i, r, hr, rfl⟩ := mem_entries hs he
    obtain ⟨j, r', hr', rfl⟩ := mem_entries hs he'
    have hne : i ≠ j := by
      rintro rfl
      exact hids rfl
    obtain ⟨hoff, hn⟩ := extent_range hs hr
    obtain ⟨hoff', hn'⟩ := extent_range hs hr'
    have hapart := hs.sound.apart i j r r' hr hr' hne
    rw [Uses, hoff, hn] at huse
    rw [Uses, hoff', hn'] at huse'
    omega
  · rw [h.records, Book.ledger, ledgerFrom_eq howned, entries_eq hs, List.filter_map,
      List.filter_map, List.map_map, List.map_map]
    have hfilter : (fun r : RegionRecord => decide (r.dead = false))
          ∘ (fun x : Region × Nat => x.1.record x.2)
        = (fun e : RegionEntry => e.isLive) ∘ fun x : Region × Nat => x.1.entry x.2 := by
      funext x
      rw [Function.comp, Function.comp, Region.entry_isLive]
      cases hdead : x.1.dead <;> simp [hdead]
    rw [hfilter]
    apply List.map_congr_left
    intro x hx
    exact ofRecord_eq hs (List.mem_zipIdx_iff_getElem?.mp (List.mem_filter.mp hx).1)

/-- The book of an empty manifest. -/
def Book.vacant (g : UInt64) : Book := ⟨[], 0, g⟩

/-- A server without regions, whose manifest has the given generation. -/
def vacant (m : ByteMem) (t : τ) (g : UInt64) : RegionIpc τ :=
  { records := []
    translator := t
    manifest := ⟨m.write 0 (canonicalHeader g 0 0).fields.flatten, manifestTotalSize, []⟩
    vnanos := 0
    emitted := [] }

theorem stored_vacant (m : ByteMem) (t : τ) {g : UInt64} (hg : g % 2 = 0) :
  (Book.vacant g).Stored (vacant m t g).manifest
  := by
  refine ⟨rfl, ⟨?_, ?_, ?_⟩, ⟨?_, ?_, hg, ?_, ?_⟩⟩
  · exact ManifestHeader.ofMem_write m (canonicalHeader g 0 0)
  · intro i r hr
    cases hr
  · intro i r hr
    cases hr
  · exact Nat.zero_le _
  · exact Nat.zero_le _
  · intro r hr
    cases hr
  · intro i j r r' hr
    cases hr

theorem agrees_vacant (m : ByteMem) (t : τ) {g : UInt64} (hg : g % 2 = 0) :
  Agrees (vacant m t g)
  := by
  apply agrees_of_keeps (b := Book.vacant g) ⟨stored_vacant m t hg, rfl⟩
  intro r hr
  cases hr

end Books

/-! ### Requests are atomic -/

section Requests

variable {τ : Type}

/-- The manifest, the ledger and ring A are as before. -/
structure Untouched (s s' : RegionIpc τ) : Prop where
  manifest : s'.manifest.mem = s.manifest.mem
  records : s'.records = s.records
  emitted : s'.emitted = s.emitted

/-- An address is in the slot of an entry or among those of extents of the pool. -/
def Within (slot off n a : Nat) : Prop :=
  (RegionEntry.offset slot ≤ a ∧ a < RegionEntry.offset slot + regionEntrySize) ∨
    (Extent.offset off ≤ a ∧ a < Extent.offset (off + n))

/-- One region was added in the next slot, with its extents behind the used pool, and nothing
else: the header counts it, the ledger has its record and ring A its two events. -/
structure Added (s s' : RegionIpc τ) (flags layoutVersion nameId : UInt32) (gva len : UInt64)
    (name : Bytes) (pid : Int32) (extents : List Extent) : Prop where
  header : ManifestHeader.ofMem s'.manifest.mem =
    let hdr := ManifestHeader.ofMem s.manifest.mem
    { hdr with
      generation := hdr.generation + 2
      regionCount := hdr.regionCount + 1
      extentCount := hdr.extentCount + UInt32.ofNat extents.length }
  entry : ∃ packed, RegionEntry.packName name = .ok packed ∧
    RegionEntry.ofMem s'.manifest.mem (ManifestHeader.ofMem s.manifest.mem).regionCount.toNat =
      { regionId := (ManifestHeader.ofMem s.manifest.mem).regionCount
        nameId, layoutVersion, flags, gva, len
        extentOff := (ManifestHeader.ofMem s.manifest.mem).extentCount
        extentN := UInt32.ofNat extents.length
        name := packed }
  pool : ∀ (k : Nat) (x : Extent), extents[k]? = some x →
    Extent.ofMem s'.manifest.mem ((ManifestHeader.ofMem s.manifest.mem).extentCount.toNat + k) = x
  elsewhere : ∀ a, offEntries ≤ a →
    ¬ Within (ManifestHeader.ofMem s.manifest.mem).regionCount.toNat
      (ManifestHeader.ofMem s.manifest.mem).extentCount.toNat extents.length a →
    s'.manifest.mem a = s.manifest.mem a
  records : s'.records = s.records ++
    [{ regionId := (ManifestHeader.ofMem s.manifest.mem).regionCount
       name, nameId, layoutVersion, pid, gva, len, extents, dead := false }]
  emitted : ∃ vnanos vnanos', s'.emitted = s.emitted ++
    [⟨vnanos, 0, .nameIntern nameId name, false⟩,
      ⟨vnanos', 0, .regionRegister
        { regionId := (ManifestHeader.ofMem s.manifest.mem).regionCount
          nameId, layoutVersion
          manifestGeneration :=
            ((ManifestHeader.ofMem s.manifest.mem).generation + 2).toUInt32 }, true⟩]

/-- A request that fails touches nothing, and a region that is registered is added. -/
def Atomic (f : Translator τ) (s s' : RegionIpc τ) (req : Request) (pid : Int32) (reply : Reply) :
    Prop :=
  (reply.status ≠ Status.ok.toU16 → Untouched s s') ∧
    (reply.status = Status.ok.toU16 →
      ∀ flags layoutVersion nameId gva len name,
        req = .register flags layoutVersion nameId gva len name →
          ∃ extents, (f s.translator pid gva len).2 = .ok extents ∧
            Added s s' flags layoutVersion nameId gva len name pid extents)

/-- The workload asks for a region that there is room for, and the next generation has more than
32 bits. -/
def Strands (f : Translator τ) (s : RegionIpc τ) (req : Request) (pid : Int32)
    (workloadPid : Option Int32) : Prop :=
  let hdr := ManifestHeader.ofMem s.manifest.mem
  workloadPid = some pid ∧
    (∃ flags layoutVersion nameId gva len name,
      req = .register flags layoutVersion nameId gva len name ∧
        RegionIpc.refusal hdr.regionCount.toNat hdr.extentCount.toNat
          (f s.translator pid gva len).2 = none) ∧
      2 ^ 32 ≤ (hdr.generation + 2).toNat

variable {f : Translator τ} {s s' : RegionIpc τ} {dbg : Bool} {g : UInt64} {n p : Nat} {r : Region}
  {t : τ} {req : Request} {pid : Int32} {workloadPid : Option Int32} {reply : Reply}

/-- Publishing a region writes its slot and its extents, besides the header. -/
theorem publish_elsewhere {m : Slice} {a : Nat} (ha : offEntries ≤ a)
    (hout : ¬ Within n p r.extents.length a) :
  (m.writeAll (sealedWrites g (publishWrites g n p r))).mem a = m.mem a
  := by
  have hgen : ∀ (m : ByteMem) (g : UInt64), m.write offGeneration (Bytes.ofU64 g) a = m a := by
    intro m g
    apply ByteMem.write_apply_of_le
    rw [Bytes.length_ofU64]
    exact Nat.le_trans (by decide) ha
  have hslot : ¬ (RegionEntry.offset n ≤ a ∧
      a < RegionEntry.offset n + (r.entry n).fields.flatten.length) := by
    rw [RegionEntry.length_fields]
    exact fun h => hout (Or.inl h)
  rw [writeAll_publishWrites_mem, hgen, ByteMem.write_apply_of_le,
    (ByteMem.write_apply_or ..).resolve_right hslot,
    putExtents_apply (fun h => hout (Or.inr h)), hgen]
  rw [ManifestHeader.length_fields, Nat.zero_add]
  exact ha

/-- A region that is registered is added. -/
theorem added_of_registered (h : Headed s.manifest g n p) (hcount : n < regionCapacity)
    (hoff : r.extentOff = p) (hdead : r.dead = false) :
  Added s (s.registered t g n p r) r.flags r.layoutVersion r.nameId r.gva r.len r.name r.pid
    r.extents
  := by
  have hn : (ManifestHeader.ofMem s.manifest.mem).regionCount = UInt32.ofNat n := by
    rw [h.header]
    rfl
  have hp : (ManifestHeader.ofMem s.manifest.mem).extentCount = UInt32.ofNat p := by
    rw [h.header]
    rfl
  have hmem : (s.registered t g n p r).manifest
      = s.manifest.writeAll (sealedWrites g (publishWrites g n p r)) := rfl
  constructor
  · rw [hmem, writeAll_publishWrites_mem, ManifestHeader.ofMem_write_generation,
      ManifestHeader.ofMem_write, h.header]
    simp only [canonicalHeader, UInt32.ofNat_add]
    rfl
  · refine ⟨r.packed, packName_packed r, ?_⟩
    rw [hmem, hn, hp, h.toNat_count, writeAll_publishWrites_mem, entry_write_generation,
      entry_write_header, RegionEntry.ofMem_write, Region.entry, hdead, hoff]
    rfl
  · intro k x hx
    rw [hmem, hp, h.toNat_pool, writeAll_publishWrites_mem, extent_write_generation,
      extent_write_header, extent_write_entry hcount]
    apply extent_putExtents hx
  · intro a ha hout
    rw [hn, hp, h.toNat_count, h.toNat_pool] at hout
    exact publish_elsewhere ha hout
  · rw [hn, RegionIpc.registered, Region.record, hdead]
  · refine ⟨s.vnanos, s.vnanos + 1, ?_⟩
    rw [hn, h.generation, RegionIpc.registered, List.append_assoc]
    rfl

/-- A live record has a slot. -/
theorem Agrees.slot {record : RegionRecord} (h : Agrees s) (hmem : record ∈ s.records)
    (hdead : record.dead = false) :
  ∃ i < regionCapacity, record.regionId = UInt32.ofNat i
  := by
  have hlisted : ofRecord record ∈
      ((entries s.manifest.mem).filter fun e => e.isLive).map (ofEntry s.manifest.mem) := by
    rw [← h.listed]
    apply List.mem_map_of_mem
    rw [List.mem_filter]
    exact ⟨hmem, decide_eq_true hdead⟩
  obtain ⟨e, he, heq⟩ := List.mem_map.mp hlisted
  obtain ⟨i, hi, rfl⟩ := List.mem_map.mp (List.mem_filter.mp he).1
  have hlt := List.mem_range.mp hi
  refine ⟨i, Nat.lt_of_lt_of_le hlt h.headed.count, ?_⟩
  have hid : (RegionEntry.ofMem s.manifest.mem i).regionId = record.regionId :=
    congrArg Listing.regionId heq
  apply UInt32.toNat_inj.mp
  rw [← hid, h.ids i hlt]
  exact (Word.toNat_ofNat_le (Nat.le_trans (Nat.le_of_lt hlt) h.headed.count) (by decide)).symm

theorem buildErrorStatus_ne_ok (e : BuildExtentsError) :
  buildErrorStatus e ≠ .ok
  := by
  cases e with
  | translate e => cases e <;> simp [buildErrorStatus]
  | tooManyExtents => simp [buildErrorStatus]

theorem refusal_ne_ok {answer : Except BuildExtentsError (List Extent)} {status : Status}
    (h : RegionIpc.refusal n p answer = some status) :
  status.toU16 ≠ Status.ok.toU16
  := by
  have htell : ∀ st : Status, st ≠ .ok → st.toU16 ≠ Status.ok.toU16 := by
    intro st
    cases st <;> decide
  apply htell
  cases answer with
  | error e =>
      rw [← Option.some.inj h]
      apply buildErrorStatus_ne_ok
  | ok extents =>
      rw [RegionIpc.refusal] at h
      split at h
      · rw [← Option.some.inj h]
        decide
      · split at h
        · rw [← Option.some.inj h]
          decide
        · cases h

theorem refusal_eq_none {answer : Except BuildExtentsError (List Extent)}
    (h : RegionIpc.refusal n p answer = none) :
  ∃ extents, answer = .ok extents ∧ n < regionCapacity ∧ p + extents.length ≤ extentCapacity
  := by
  cases answer with
  | error e => cases h
  | ok extents =>
      rw [RegionIpc.refusal] at h
      split at h
      · cases h
      · rename_i hcount
        split at h
        · cases h
        · rename_i hpool
          exact ⟨extents, rfl, Nat.not_le.mp hcount, Nat.not_lt.mp hpool⟩

/-- A reply without a region, from a state in which nothing was touched. -/
theorem atomic_of_untouched {status : Status} (h : Untouched s s')
    (hstatus : status.toU16 ≠ Status.ok.toU16) :
  Atomic f s s' req pid (errReply status)
  := ⟨fun _ => h, fun hok => absurd hok hstatus⟩

/-- Publishing a region shows in the manifest. -/
theorem published_touches (h : Headed s.manifest g n p) :
  ¬ Untouched s (s.published t g n p r)
  := by
  intro hsame
  have hgen : (ManifestHeader.ofMem (s.published t g n p r).manifest.mem).generation = g + 2 := by
    change (ManifestHeader.ofMem
      (s.manifest.writeAll (sealedWrites g (publishWrites g n p r))).mem).generation = _
    rw [writeAll_publishWrites_mem, ManifestHeader.ofMem_write_generation]
  rw [hsame.manifest, h.generation] at hgen
  have hnat := congrArg UInt64.toNat hgen
  have hlt := g.toNat_lt
  rw [UInt64.toNat_add] at hnat
  simp only [UInt64.reduceToNat] at hnat
  omega

/-- Taking a region back is atomic. -/
theorem atomic_unregister {regionId : UInt32} (hs : Agrees s)
    (hrun : (RegionIpc.handle dbg f (.unregister regionId) pid (some pid)).run s
      = (s', .ok reply)) :
  Atomic f s s' (.unregister regionId) pid reply
  := by
  cases hfind : s.records.find? fun r => r.regionId = regionId ∧ r.dead = false with
  | none =>
      rw [RegionIpc.run_handle_unknown hfind] at hrun
      obtain ⟨rfl, hreply⟩ := Prod.mk.inj hrun
      rw [← Res.ok.inj hreply]
      exact atomic_of_untouched ⟨rfl, rfl, rfl⟩ (by decide)
  | some record =>
      have hlive := List.find?_some hfind
      rw [decide_eq_true_eq] at hlive
      obtain ⟨i, hi, hid⟩ := hs.slot (List.mem_of_find?_eq_some hfind) hlive.2
      obtain rfl : regionId = UInt32.ofNat i := hlive.1.symm.trans hid
      rcases RegionIpc.run_handle_unregister dbg hs.headed hi hfind with hdone | hover
      · rw [hdone] at hrun
        obtain ⟨_, hreply⟩ := Prod.mk.inj hrun
        rw [← Res.ok.inj hreply]
        refine ⟨fun hstatus => absurd rfl hstatus, ?_⟩
        intro _ _ _ _ _ _ _ heq
        cases heq
      · have hpanic := hover.1
        rw [hrun] at hpanic
        cases hpanic

/-- A region that there is room for is registered atomically exactly when the next generation has
32 bits. -/
theorem atomic_publish_iff (dbg : Bool) (h : Headed s.manifest g n p)
    (hanswer : f s.translator r.pid r.gva r.len = (t, .ok r.extents)) (hcount : n < regionCapacity)
    (hpool : p + r.extents.length ≤ extentCapacity) (hoff : r.extentOff = p)
    (hdead : r.dead = false) :
  (∀ s' reply, (RegionIpc.handle dbg f (.register r.flags r.layoutVersion r.nameId r.gva r.len
      r.name) r.pid (some r.pid)).run s = (s', .ok reply) →
    Atomic f s s' (.register r.flags r.layoutVersion r.nameId r.gva r.len r.name) r.pid reply) ↔
      (g + 2).toNat < 2 ^ 32
  := by
  rcases RegionIpc.run_handle_published dbg h hanswer hcount hpool hoff hdead with hdone | hover
  · constructor
    · intro hall
      by_contra hlarge
      rw [if_neg hlarge] at hdone
      have hsame := (hall _ _ hdone).1 (by decide)
      exact published_touches h hsame
    · intro hsmall s' reply hrun
      rw [if_pos hsmall] at hdone
      obtain ⟨rfl, hreply⟩ := Prod.mk.inj (hrun.symm.trans hdone)
      rw [Res.ok.inj hreply]
      refine ⟨fun hstatus => absurd rfl hstatus, ?_⟩
      intro _ _ _ _ _ _ _ heq
      obtain ⟨rfl, rfl, rfl, rfl, rfl, rfl⟩ := Request.register.inj heq
      exact ⟨r.extents, congrArg Prod.snd hanswer, added_of_registered h hcount hoff hdead⟩
  · constructor
    · intro _
      rw [hover.2.2]
      decide
    · intro _ s' reply hrun
      have hpanic := hover.1
      rw [hrun] at hpanic
      cases hpanic

/-- A request of any process is atomic exactly when it does not publish a region under a
generation of more than 32 bits: there the region is published and the request fails. -/
theorem request_atomic_iff {bytes : Bytes} (dbg : Bool) (f : Translator τ) (hs : Agrees s)
    (hreq : decodeRequest bytes = .ok req) :
  (∀ s' reply, (RegionIpc.handle dbg f req pid workloadPid).run s = (s', .ok reply) →
    Atomic f s s' req pid reply) ↔ ¬ Strands f s req pid workloadPid
  := by
  have hh := hs.headed
  by_cases hpid : workloadPid = some pid
  · subst hpid
    cases req with
    | register flags layoutVersion nameId gva len name =>
        obtain ⟨hflags, _, hname⟩ := decodeRequest_register hreq
        cases hrefusal : RegionIpc.refusal _ _ (f s.translator pid gva len).2 with
        | some status =>
            have hnot : ¬ Strands f s (.register flags layoutVersion nameId gva len name) pid
                (some pid) := by
              rintro ⟨_, ⟨_, _, _, _, _, _, heq, hnone⟩, _⟩
              obtain ⟨rfl, rfl, rfl, rfl, rfl, rfl⟩ := Request.register.inj heq
              rw [hrefusal] at hnone
              cases hnone
            simp only [hnot, not_false_eq_true, iff_true]
            intro s' reply hrun
            rw [RegionIpc.run_handle_refused hh hname hflags hrefusal] at hrun
            obtain ⟨rfl, hreply⟩ := Prod.mk.inj hrun
            rw [← Res.ok.inj hreply]
            exact atomic_of_untouched ⟨rfl, rfl, rfl⟩ (refusal_ne_ok hrefusal)
        | none =>
            obtain ⟨extents, hanswer, hcount, hpool⟩ := refusal_eq_none hrefusal
            let r : Region :=
              { name, nameId, layoutVersion, flags, pid, gva, len
                extentOff := (ManifestHeader.ofMem s.manifest.mem).extentCount.toNat, extents
                dead := false, owned := true, fits := hname, alive := hflags }
            have hask : f s.translator r.pid r.gva r.len
                = ((f s.translator pid gva len).1, .ok r.extents) := Prod.ext rfl hanswer
            have hstrands : Strands f s (.register flags layoutVersion nameId gva len name) pid
                (some pid) ↔
                  2 ^ 32 ≤ ((ManifestHeader.ofMem s.manifest.mem).generation + 2).toNat :=
              ⟨fun h => h.2.2, fun h => ⟨rfl, ⟨_, _, _, _, _, _, rfl, hrefusal⟩, h⟩⟩
            rw [hstrands, Nat.not_le]
            exact atomic_publish_iff dbg hh hask hcount hpool rfl rfl
    | unregister regionId =>
        have hnot : ¬ Strands f s (.unregister regionId) pid (some pid) := by
          rintro ⟨_, ⟨_, _, _, _, _, _, heq, _⟩, _⟩
          cases heq
        simp only [hnot, not_false_eq_true, iff_true]
        intro s' reply hrun
        exact atomic_unregister hs hrun
  · have hnot : ¬ Strands f s req pid workloadPid := fun h => hpid h.1
    simp only [hnot, not_false_eq_true, iff_true]
    intro s' reply hrun
    rw [RegionIpc.run_handle_stranger hpid] at hrun
    obtain ⟨rfl, hreply⟩ := Prod.mk.inj hrun
    rw [← Res.ok.inj hreply]
    exact atomic_of_untouched ⟨rfl, rfl, rfl⟩ (by decide)

/-- A request for one byte at `0x1000` under the name `a`. -/
def sampleDatagram : Bytes :=
  [0x44, 0x47, 0x52, 0x52, 1, 0, 1, 0, 0, 0, 0, 0, 1, 0, 0, 0, 1, 0, 0, 0, 0, 0x10, 0, 0, 0, 0, 0,
    0, 1, 0, 0, 0, 0, 0, 0, 0, 1, 0, 0x61]

/-- The request of the sample datagram. -/
def sampleRequest : Request := .register 0 1 1 0x1000 1 [0x61]

/-- The region of the sample request. -/
def sampleRegion : Region :=
  { name := [0x61], nameId := 1, layoutVersion := 1, flags := 0, pid := 7, gva := 0x1000
    len := 1, extentOff := 0, extents := [⟨0x1000, 1⟩], dead := false, owned := true
    fits := by decide, alive := rfl }

/-- A translator that finds each range in one piece at the same place. -/
def identityTranslator : Translator Unit := fun _ _ gva len => ((), .ok [⟨gva, len⟩])

/-- At the first generation the sample request is atomic. -/
theorem request_atomic_iff_start :
  Agrees (vacant (fun _ => 0) () 0) ∧ decodeRequest sampleDatagram = .ok sampleRequest ∧
    ∀ s' reply, (RegionIpc.handle true identityTranslator sampleRequest 7 (some 7)).run
        (vacant (fun _ => 0) () 0) = (s', .ok reply) →
      Atomic identityTranslator (vacant (fun _ => 0) () 0) s' sampleRequest 7 reply
  := by
  have hagrees : Agrees (vacant (fun _ => 0) () 0) := agrees_vacant _ _ rfl
  have hdecoded : decodeRequest sampleDatagram = .ok sampleRequest := rfl
  refine ⟨hagrees, hdecoded, ?_⟩
  apply (request_atomic_iff true identityTranslator hagrees hdecoded).mpr
  rintro ⟨_, _, hlarge⟩
  rw [(stored_vacant _ _ rfl).headed.generation] at hlarge
  exact absurd hlarge (by decide)

/-- At the last generation of 32 bits the sample request fails, and its region is published. -/
theorem stranded_region :
  ¬ ∀ (s : RegionIpc Unit) (f : Translator Unit) (dbg : Bool) (bytes : Bytes) (req : Request)
      (pid : Int32) (workloadPid : Option Int32), Agrees s → decodeRequest bytes = .ok req →
    ∀ s' reply, (RegionIpc.handle dbg f req pid workloadPid).run s = (s', .ok reply) →
      Atomic f s s' req pid reply
  := by
  intro hall
  have hatomic := hall (vacant (fun _ => 0) () 0xFFFFFFFE) identityTranslator true sampleDatagram
    sampleRequest 7 (some 7) (agrees_vacant _ _ rfl) rfl
  have hstored : (Book.vacant 0xFFFFFFFE).Stored (vacant (fun _ => 0) () 0xFFFFFFFE).manifest :=
    stored_vacant _ _ rfl
  have hiff := atomic_publish_iff (f := identityTranslator) (t := ()) (r := sampleRegion)
    (s := vacant (fun _ => 0) () 0xFFFFFFFE) true hstored.headed rfl (by decide) (by decide) rfl rfl
  have hlarge : ¬ ((0xFFFFFFFE : UInt64) + 2).toNat < 2 ^ 32 := by decide
  exact hlarge (hiff.mp hatomic)

end Requests

end Protocol.Regions
