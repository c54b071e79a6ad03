import DetGuest.Host.Push
import DetGuest.Host.Walk

/-!
# The rings of an attached channel

The rings a header describes, as rings mapped into guest memory, and the drain of a ring
that holds a queue of records.
-/

namespace Host

open Wire

/-- `r` is the given ring of the channel. -/
structure RingAt (r : RingMap) (ch : Channel) (ring : RingId) : Prop where
  data : r.data = ch.dataGpa ring
  size : r.size = (ch.ringDesc ring).size
  prod : r.prod = ch.prodGpa ring
  cons : r.cons = ch.consGpa ring

theorem RingAt.congr {r : RingMap} {a b : Channel} {ring : RingId} (h : RingAt r a ring)
    (hheader : b.header = a.header) (hbase : b.base = a.base) :
  RingAt r b ring
  := by
  obtain ⟨hdata, hsize, hprod, hcons⟩ := h
  constructor
  · rw [hdata, Channel.dataGpa, Channel.dataGpa, Channel.ringDesc, Channel.ringDesc, hheader, hbase]
  · rw [hsize, Channel.ringDesc, Channel.ringDesc, hheader]
  · rw [hprod, Channel.prodGpa, Channel.prodGpa, hbase]
  · rw [hcons, Channel.consGpa, Channel.consGpa, hbase]

/-- The index cells of a ring lie in front of the data of all rings. -/
theorem cell_bounds (ring : RingId) :
  0x100 ≤ ring.prodOffset ∧ ring.prodOffset + 4 ≤ offManifest
    ∧ 0x100 ≤ ring.consOffset ∧ ring.consOffset + 4 ≤ offManifest
  := by
  cases ring <;> decide

/-- The cells of a ring are apart. -/
theorem cell_apart (ring : RingId) :
  ring.prodOffset + 4 ≤ ring.consOffset
  := by
  cases ring <;> decide

/-- A ring of an accepted header that holds records of any length. -/
def Channel.ringMap (ch : Channel) (ring : RingId) (hacc : Accepted ch.header)
    (hge : maxRecordLen ≤ (ch.ringDesc ring).size.toNat) : RingMap :=
  { data := ch.dataGpa ring
    size := (ch.ringDesc ring).size
    prod := ch.prodGpa ring
    cons := ch.consGpa ring
    size_pow := (hacc.valid ring).size_pow
    size_ge := hge
    prod_sep := by
      have hcell := cell_bounds ring
      have hoff := (hacc.valid ring).offset_ge
      simp only [Channel.prodGpa, Channel.dataGpa, Channel.ringDesc, offRingCData,
        offManifest] at *
      omega
    cons_sep := by
      have hcell := cell_bounds ring
      have hoff := (hacc.valid ring).offset_ge
      simp only [Channel.consGpa, Channel.dataGpa, Channel.ringDesc, offRingCData,
        offManifest] at *
      omega
    cell_sep := by
      have hcell := cell_apart ring
      simp only [Channel.consGpa, Channel.prodGpa]
      omega }

theorem Channel.ringMap_at (ch : Channel) (ring : RingId) (hacc : Accepted ch.header)
    (hge : maxRecordLen ≤ (ch.ringDesc ring).size.toNat) :
  RingAt (ch.ringMap ring hacc hge) ch ring
  := ⟨rfl, rfl, rfl, rfl⟩

/-- The index cells of different rings share no byte. -/
theorem cells_apart {a b : RingId} (hab : a ≠ b) :
  (a.prodOffset + 4 ≤ b.prodOffset ∨ b.prodOffset + 4 ≤ a.prodOffset)
    ∧ (a.prodOffset + 4 ≤ b.consOffset ∨ b.consOffset + 4 ≤ a.prodOffset)
    ∧ (a.consOffset + 4 ≤ b.prodOffset ∨ b.prodOffset + 4 ≤ a.consOffset)
    ∧ (a.consOffset + 4 ≤ b.consOffset ∨ b.consOffset + 4 ≤ a.consOffset)
  := by
  revert hab
  cases a <;> cases b <;> decide

/-- Rings of one channel share no address. -/
theorem ringAt_apart {ch : Channel} {a b : RingId} {r r' : RingMap} (hacc : Accepted ch.header)
    (hr : RingAt r ch a) (hr' : RingAt r' ch b) (hab : a ≠ b) :
  r.Apart r'
  := by
  have hdisj := hacc.disjoint a b hab
  have ha := (hacc.valid a).offset_ge
  have hb := (hacc.valid b).offset_ge
  have hca := cell_bounds a
  have hcb := cell_bounds b
  have hcells := cells_apart hab
  simp only [RingsOverlap, not_and, Nat.not_lt, offRingCData, offManifest] at hdisj ha hb hca hcb
  intro i hi hi'
  simp only [RingMap.Owns, hr.data, hr.size, hr.prod, hr.cons, hr'.data, hr'.size, hr'.prod,
    hr'.cons, Channel.dataGpa, Channel.prodGpa, Channel.consGpa, Channel.ringDesc] at hi hi'
  omega

/-- No access inside the channel page is refused. -/
def Mapped (gm : GuestMem) (base : PageBase) : Prop :=
  ∀ gpa len, base.gpa ≤ gpa → gpa + len ≤ base.gpa + channelSize →
    gm.readErr gpa len = none ∧ gm.writeErr gpa len = none

section Places

variable {ch : Channel}

theorem Mapped.prod (h : Mapped ch.gm ch.base) (ring : RingId) :
  ch.gm.readErr (ch.prodGpa ring) 4 = none ∧ ch.gm.writeErr (ch.prodGpa ring) 4 = none
  := by
  have hcell := cell_bounds ring
  simp only [offManifest] at hcell
  apply h
  · simp only [Channel.prodGpa]
    omega
  · simp only [Channel.prodGpa, channelSize]
    omega

theorem Mapped.cons (h : Mapped ch.gm ch.base) (ring : RingId) :
  ch.gm.readErr (ch.consGpa ring) 4 = none ∧ ch.gm.writeErr (ch.consGpa ring) 4 = none
  := by
  have hcell := cell_bounds ring
  simp only [offManifest] at hcell
  apply h
  · simp only [Channel.consGpa]
    omega
  · simp only [Channel.consGpa, channelSize]
    omega

theorem Mapped.readable (h : Mapped ch.gm ch.base) (hacc : Accepted ch.header) (ring : RingId) :
  Readable ch.gm (ch.ringDesc ring).size (ch.dataGpa ring)
  := by
  intro gpa len hge hle
  have hend := (hacc.valid ring).end_le
  apply (h gpa len _ _).1
  · simp only [Channel.dataGpa] at hge
    omega
  · simp only [Channel.dataGpa, Channel.ringDesc] at hle
    omega

end Places

/-- The push onto a ring that holds records either finds no room and changes nothing, or
publishes its records. -/
theorem pushOutcome_queue (dbg : Bool) {ch : Channel} {ring : RingId} {r : RingMap}
    {recs : List Bytes} {n : Nat} {bytes : UInt32 → Bytes} (seq : UInt32)
    (hmapped : Mapped ch.gm ch.base) (hacc : Accepted ch.header)
    (hat : RingAt r ch ring) (hq : Queue r ch.gm.bytes recs) (hmax : n ≤ maxRecordLen)
    (hbytes : ∀ s, (bytes s).length = n) (hframed : ∀ s, WellFramed (bytes s)) :
  ((pushOutcome dbg ring n bytes seq ch).ch = ch ∧
      (pushOutcome dbg ring n bytes seq ch).res = .err .ringFull) ∨
    ∃ new, new = pushRecs (r.tail (ch.gm.bytes.u32 r.prod)) n seq (seq + 1) bytes ∧
      (pushOutcome dbg ring n bytes seq ch).ch
        = { ch with gm := { ch.gm with bytes := r.publish ch.gm.bytes new } } ∧
      (pushOutcome dbg ring n bytes seq ch).res = .ok (n, seq + UInt32.ofNat new.length) ∧
      Circular.Whole r.size.toNat (ch.gm.bytes.u32 r.prod).toNat new ∧
      Queue r (r.publish ch.gm.bytes new) (recs ++ new) ∧
      published r ch.gm.bytes (r.publish ch.gm.bytes new) = new
  := by
  obtain ⟨hrp, hwp⟩ := hmapped.prod ring
  obtain ⟨hrc, _⟩ := hmapped.cons ring
  rw [← hat.prod] at hrp hwp
  rw [← hat.cons] at hrc
  simp only [pushOutcome, ← hat.prod, ← hat.cons, ← hat.size, hrp, hrc, r.toNat_contiguousTail]
  by_cases hroom : free (ch.gm.bytes.u32 r.prod) (ch.gm.bytes.u32 r.cons) r.size
      < bytesNeeded (ch.gm.bytes.u32 r.prod) r.size (UInt32.ofNat n)
  · left
    rw [if_pos hroom]
    exact ⟨rfl, rfl⟩
  right
  obtain ⟨htmod, htmin⟩ := r.tail_rules hq.prod_aligned
  have hfits : PadFits dbg (r.tail (ch.gm.bytes.u32 r.prod)) := ⟨htmin, fun _ => htmod⟩
  rw [if_neg hroom, if_neg (fun h => h.2 hfits)]
  refine ⟨_, rfl, ?_⟩
  obtain ⟨hwhole, hq', hpub⟩ := hq.push (s := seq) (t := seq + 1) rfl hmax hbytes hframed hroom
  generalize pushRecs (r.tail (ch.gm.bytes.u32 r.prod)) n seq (seq + 1) bytes = new at *
  have hend := (hacc.valid ring).end_le
  have hwrites : ∀ w ∈ placed r.data (r.size - 1) (ch.gm.bytes.u32 r.prod) new
      ++ [(r.prod, Bytes.ofU32 (ch.gm.bytes.u32 r.prod + UInt32.ofNat (Circular.span new)))],
      ch.gm.writeErr w.1 w.2.length = none := by
    intro w hw
    rcases List.mem_append.mp hw with hw | hw
    · obtain ⟨hlo, hhi⟩ := placed_inside r.size_pow hwhole w hw
      rw [hat.data, hat.size, Channel.dataGpa] at hhi
      rw [hat.data, Channel.dataGpa] at hlo
      apply (hmapped _ _ _ _).2
      · omega
      · rw [Channel.ringDesc] at hhi
        omega
    · rw [List.mem_singleton] at hw
      subst hw
      rw [Bytes.length_ofU32]
      exact hwp
  simp only [storeOutcome, ← hat.data, ← hat.size, ← hat.prod, writeAll_of_ok hwrites,
    List.foldl_append, foldl_placed r.size_pow, List.foldl_cons, List.foldl_nil]
  exact ⟨rfl, rfl, hwhole, hq', hpub⟩

/-- The same push, with the next sequence number kept. -/
theorem keepSeq_queue (dbg : Bool) {ch : Channel} {ring : RingId} {r : RingMap}
    {recs : List Bytes} {n : Nat} {bytes : UInt32 → Bytes} (seq : UInt32)
    (store : Channel → UInt32 → Channel)
    (hmapped : Mapped ch.gm ch.base) (hacc : Accepted ch.header)
    (hat : RingAt r ch ring) (hq : Queue r ch.gm.bytes recs) (hmax : n ≤ maxRecordLen)
    (hbytes : ∀ s, (bytes s).length = n) (hframed : ∀ s, WellFramed (bytes s))
    {o : Outcome PushError Unit} (ho : o = (pushOutcome dbg ring n bytes seq ch).keepSeq store) :
  (o.ch = ch ∧ o.res = .err .ringFull) ∨
    ∃ new, new = pushRecs (r.tail (ch.gm.bytes.u32 r.prod)) n seq (seq + 1) bytes ∧
      o.ch = store { ch with gm := { ch.gm with bytes := r.publish ch.gm.bytes new } }
        (seq + UInt32.ofNat new.length) ∧
      o.res = .ok () ∧
      Circular.Whole r.size.toNat (ch.gm.bytes.u32 r.prod).toNat new ∧
      Queue r (r.publish ch.gm.bytes new) (recs ++ new) ∧
      published r ch.gm.bytes (r.publish ch.gm.bytes new) = new
  := by
  subst ho
  rcases pushOutcome_queue dbg seq hmapped hacc hat hq hmax hbytes hframed
    with ⟨hch, hres⟩ | ⟨new, hnew, hch, hres, hwhole, hq', hpub⟩
  · left
    simp only [Outcome.keepSeq, hres, hch]
    trivial
  · right
    refine ⟨new, hnew, ?_, ?_, hwhole, hq', hpub⟩
    · simp only [Outcome.keepSeq, hres, hch]
    · simp only [Outcome.keepSeq, hres]

/-- What a successful push leaves: the place of the channel, and the published records
behind those of the ring. -/
structure Pushed (h h' : HostState) (r : RingMap) (recs new : List Bytes) : Prop where
  header : h'.ch.header = h.ch.header
  base : h'.ch.base = h.ch.base
  mapped : Mapped h'.ch.gm h'.ch.base
  bytes : h'.ch.gm.bytes = r.publish h.ch.gm.bytes new
  whole : Circular.Whole r.size.toNat (h.ch.gm.bytes.u32 r.prod).toNat new
  queue : Queue r h'.ch.gm.bytes (recs ++ new)
  published : published r h.ch.gm.bytes h'.ch.gm.bytes = new

/-- Pushing a command onto a ring that holds records. -/
theorem run_pushCommand_queue (dbg : Bool) (cmd : Command) {r : RingMap} {recs : List Bytes}
    (h : HostState) (hmapped : Mapped h.ch.gm h.ch.base) (hacc : Accepted h.ch.header)
    (hat : RingAt r h.ch .C) (hq : Queue r h.ch.gm.bytes recs) :
  (∃ h', (pushCommand dbg cmd).run h = (h', .err .ringFull) ∧ h'.ch = h.ch) ∨
    ∃ h' new, (pushCommand dbg cmd).run h = (h', .ok ()) ∧ Pushed h h' r recs new ∧
      new = pushRecs (r.tail (h.ch.gm.bytes.u32 r.prod)) (recordLen (commandPayloadLen cmd))
        h.ch.nextSeqC (h.ch.nextSeqC + 1) (fun s => commandBytes s cmd) ∧
      h'.ch.nextSeqC = h.ch.nextSeqC + UInt32.ofNat new.length
  := by
  have hmax : recordLen (commandPayloadLen cmd) ≤ maxRecordLen := by
    rw [commandPayloadLen_eq]
    exact cmd.recordLen_le
  have hframed : ∀ s, WellFramed (commandBytes s cmd) :=
    fun s => wellFramed_recordBytes cmd.recordLen_le
  have hrun := run_pushCommand dbg cmd h (hacc.valid .C).size_pow rfl
  rcases keepSeq_queue dbg h.ch.nextSeqC _ hmapped hacc hat hq hmax
    (fun s => length_commandBytes s cmd) hframed (rfl : commandOutcome dbg cmd h.ch = _)
    with ⟨hch, hres⟩ | ⟨new, hnew, hch, hres, hwhole, hq', hpub⟩
  · left
    rw [hres] at hrun
    exact ⟨_, hrun, hch⟩
  · right
    rw [hch, hres] at hrun
    exact ⟨_, new, hrun, ⟨rfl, rfl, hmapped, rfl, hwhole, hq', hpub⟩, hnew, rfl⟩

/-- Pushing a workload-control record onto a ring that holds records. -/
theorem run_pushWorkloadCtrl_queue (dbg : Bool) (rec : WorkloadCtrl) {r : RingMap}
    {recs : List Bytes} (h : HostState) (hmapped : Mapped h.ch.gm h.ch.base)
    (hacc : Accepted h.ch.header) (hat : RingAt r h.ch .I) (hq : Queue r h.ch.gm.bytes recs) :
  (∃ h', (pushWorkloadCtrl dbg rec).run h = (h', .err .ringFull) ∧ h'.ch = h.ch) ∨
    ∃ h' new, (pushWorkloadCtrl dbg rec).run h = (h', .ok ()) ∧ Pushed h h' r recs new ∧
      new = pushRecs (r.tail (h.ch.gm.bytes.u32 r.prod)) (recordLen 8)
        h.ch.nextSeqI (h.ch.nextSeqI + 1) (fun s => workloadCtrlBytes s 0 rec) ∧
      h'.ch.nextSeqC = h.ch.nextSeqC
  := by
  have hframed : ∀ s, WellFramed (workloadCtrlBytes s 0 rec) := by
    intro s
    apply wellFramed_recordBytes
    rw [rec.length_payload]
    decide
  have hrun := run_pushWorkloadCtrl dbg rec h (hacc.valid .I).size_pow rfl
  rcases keepSeq_queue dbg h.ch.nextSeqI _ hmapped hacc hat hq (by decide)
    (fun s => length_workloadCtrlBytes s 0 rec) hframed
    (rfl : workloadCtrlOutcome dbg rec h.ch = _)
    with ⟨hch, hres⟩ | ⟨new, hnew, hch, hres, hwhole, hq', hpub⟩
  · left
    rw [hres] at hrun
    exact ⟨_, hrun, hch⟩
  · right
    rw [hch, hres] at hrun
    exact ⟨_, new, hrun, ⟨rfl, rfl, hmapped, rfl, hwhole, hq', hpub⟩, hnew, rfl⟩

/-- Storing a consumer index as a change of the channel. -/
def Channel.storeCons (ch : Channel) (ring : RingId) (pos : UInt32) : Channel :=
  { ch with gm := { ch.gm with bytes := ch.gm.bytes.write (ch.consGpa ring) (Bytes.ofU32 pos) } }

/-- The drain of a ring that holds acceptable records takes all of them. -/
theorem drainOutcome_queue (dbg : Bool) {ch : Channel} {ring : RingId} {r : RingMap}
    {recs : List Bytes} (hmapped : Mapped ch.gm ch.base) (hacc : Accepted ch.header)
    (hat : RingAt r ch ring) (hq : Queue r ch.gm.bytes recs)
    (haccepts : ∀ rec ∈ recs, accepts rec = .ok ()) :
  (drainOutcome dbg ring ch).res = .ok (recs.filterMap (eventOf ring)) ∧
    (drainOutcome dbg ring ch).ch = (recs.foldl Channel.foldRec ch).storeCons ring
      (ch.gm.bytes.u32 (ch.consGpa ring) + UInt32.ofNat (Circular.span recs))
  := by
  obtain ⟨hrp, _⟩ := hmapped.prod ring
  obtain ⟨hrc, hwc⟩ := hmapped.cons ring
  have hused := hq.used_eq
  have hspan := hq.span_le
  rw [hat.size] at hspan
  rw [used, hat.prod, hat.cons] at hused
  have hfull : ¬ ch.gm.bytes.u32 (ch.prodGpa ring) - ch.gm.bytes.u32 (ch.consGpa ring)
      > (ch.ringDesc ring).size := by
    rw [gt_iff_lt, UInt32.lt_iff_toNat_lt]
    omega
  have hlaid := hq.laid
  rw [hat.data, hat.size, hat.cons] at hlaid
  have hwalk : (ringWalk dbg ch ring (ch.gm.bytes.u32 (ch.prodGpa ring))
      (ch.gm.bytes.u32 (ch.consGpa ring))).recs = recs
      ∧ (ringWalk dbg ch ring (ch.gm.bytes.u32 (ch.prodGpa ring))
        (ch.gm.bytes.u32 (ch.consGpa ring))).stop = .ok () := by
    apply walk_laid (hacc.valid ring).size_pow (hmapped.readable hacc ring) hlaid hq.framed
      haccepts hused
    omega
  obtain ⟨hrecs, hstop⟩ := hwalk
  have hplace := foldRecs_place recs ch
  have hgpa := hplace.consGpa ring
  simp only [drainOutcome, ringIndices, hrp, hrc, if_neg hfull, hrecs, hstop, bump, hgpa,
    hplace.gm, hwc]
  rw [Channel.storeCons, hgpa, hplace.gm]
  split
  · -- nothing was drained, and storing the index again changes nothing
    rename_i hsame
    rw [hsame, ByteMem.write_u32_self, ← hplace.gm]
    exact ⟨rfl, rfl⟩
  · exact ⟨rfl, rfl⟩

/-- Draining a queue returns its events and stores the consumer index behind them. -/
theorem run_drainRing_queue (dbg : Bool) {ring : RingId} {r : RingMap} {recs : List Bytes}
    (h : HostState) (out : List GuestEvent) (hmapped : Mapped h.ch.gm h.ch.base)
    (hacc : Accepted h.ch.header) (hat : RingAt r h.ch ring) (hq : Queue r h.ch.gm.bytes recs)
    (haccepts : ∀ rec ∈ recs, accepts rec = .ok ()) :
  ∃ h', (drainRing dbg ring out).run h = (h', .ok (out ++ recs.filterMap (eventOf ring))) ∧
    h'.ch.header = h.ch.header ∧ h'.ch.base = h.ch.base ∧ Mapped h'.ch.gm h'.ch.base ∧
    h'.ch.gm.bytes = h.ch.gm.bytes.write r.cons
      (Bytes.ofU32 (h.ch.gm.bytes.u32 r.cons + UInt32.ofNat (Circular.span recs)))
  := by
  have hplace := foldRecs_place recs h.ch
  obtain ⟨hres, hch⟩ := drainOutcome_queue dbg hmapped hacc hat hq haccepts
  have hrun := run_drainRing dbg ring out h rfl
  rw [hres, Res.ok_bind, hch] at hrun
  refine ⟨_, hrun, ?_, ?_, ?_, ?_⟩
  · exact hplace.header
  · exact hplace.base
  · simp only [Channel.storeCons, hplace.base, hplace.gm]
    exact hmapped
  · simp only [Channel.storeCons, hplace.gm, hplace.consGpa, hat.cons]

/-- Events carry the ring they come from. -/
theorem ring_of_eventOf {ring : RingId} {recs : List Bytes} :
  ∀ ev ∈ recs.filterMap (eventOf ring), ev.ring = ring
  := by
  intro ev hev
  obtain ⟨rec, _, hrec⟩ := List.mem_filterMap.mp hev
  rw [eventOf] at hrec
  split at hrec
  · obtain ⟨owned, _, rfl⟩ := Option.map_eq_some_iff.mp hrec
    rfl
  · cases hrec

/-! ### A canonical channel -/

/-- Guest memory that refuses nothing, with the canonical header at address zero and zeros
elsewhere. -/
def canonicalMem : GuestMem :=
  { bytes := ByteMem.write (fun _ => 0) 0
      ((ChannelHeader.canonical.writeTo).run (Bytes.zeros offReserved)).1
    readErr := fun _ _ => none
    writeErr := fun _ _ => none }

/-- The page at address zero. -/
def zeroBase : PageBase := { gpa := 0, fits := by decide }

/-- The channel over the canonical header. -/
def canonicalChannel : Channel := Channel.fresh canonicalMem zeroBase ChannelHeader.canonical

theorem accepted_canonical :
  Accepted ChannelHeader.canonical
  := by
  rw [← checkHeader_eq_ok]
  decide

theorem readFrom_canonicalMem :
  ChannelHeader.readFrom (canonicalMem.bytes.read 0 offReserved) = .ok ChannelHeader.canonical
  := by
  apply congrArg Res.ok
  rw [ChannelHeader.canonical, ChannelHeader.mk.injEq]
  refine ⟨rfl, rfl, rfl, ?_⟩
  funext ring
  cases ring <;> rfl

theorem attach_canonical :
  attach canonicalMem zeroBase = .ok canonicalChannel
  := by
  rw [attach_eq_ok]
  exact ⟨rfl, ChannelHeader.canonical, readFrom_canonicalMem, accepted_canonical, rfl⟩

/-- The channel over other contents of guest memory. -/
def Channel.withMem (ch : Channel) (m : ByteMem) : Channel :=
  { ch with gm := { ch.gm with bytes := m } }

/-- The rings of the canonical channel. -/
def canonicalRing (ring : RingId) : RingMap :=
  canonicalChannel.ringMap ring accepted_canonical (by cases ring <;> decide)

theorem mapped_canonical :
  Mapped canonicalMem zeroBase
  := fun _ _ _ _ => ⟨rfl, rfl⟩

end Host
