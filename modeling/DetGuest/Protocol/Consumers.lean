import DetGuest.Host.Faults
import DetGuest.Protocol.World
import DetGuest.Wire.Arbitrary

/-!
# Two consumers of a ring

The host drains a ring through guest memory, the guest pops records from a mapped ring.  The two
framing loops read the header in different ways and check it in different orders; on aligned
indices they take the same records off the ring, whatever it holds, when the drain succeeds.
-/

namespace Protocol

open Wire Host

/-- The records of repeated pops, the memory behind them, and the result that ended them. -/
structure Popped where
  recs : List Bytes
  mem : ByteMem
  stop : Res DecodeError (Option Nat)

/-- Pop until there is no record, at most `fuel` times. -/
def popAll (dbg : Bool) (r : RingMap) : Nat → Consumer → Popped
  | 0, c => { recs := [], mem := c.mem, stop := .panic }
  | fuel + 1, c =>
      match (Consumer.popInto dbg r).run c with
      | (c', .ok (some n)) =>
          let rest := popAll dbg r fuel c'
          { rest with recs := c'.scratch.take n :: rest.recs }
      | (c', res) => { recs := [], mem := c'.mem, stop := res }

section Step

variable {dbg dbg' : Bool} {gm : GuestMem} {r : RingMap} {m : ByteMem} {pos prod : UInt32}
variable {scratch : Bytes}

/-- The memory of the guest in the middle of the pops: the consumer index has moved to `pos`, the
other bytes of the ring are those the host reads. -/
structure Trails (gm : GuestMem) (r : RingMap) (prod pos : UInt32) (m : ByteMem) : Prop where
  prod : m.u32 r.prod = prod
  cons : m.u32 r.cons = pos
  data : ∀ i, r.data ≤ i → i < r.data + r.size.toNat → m i = gm.bytes i

/-- A pop keeps the bytes that the host reads. -/
theorem Trails.advance (h : Trails gm r prod pos m) (v : UInt32) :
  Trails gm r prod v (m.write r.cons (Bytes.ofU32 v))
  := by
  have hlen := Bytes.length_ofU32 v
  constructor
  · rw [ByteMem.u32_write_outside (by rw [hlen]; exact r.cell_sep), h.prod]
  · apply ByteMem.u32_write_self
  · intro i hlo hhi
    rw [← h.data i hlo hhi]
    rcases r.cons_sep with hsep | hsep
    · apply ByteMem.write_apply_of_le
      omega
    · apply ByteMem.write_apply_of_lt
      omega

theorem Trails.read (h : Trails gm r prod pos m) {n : Nat} (hn : n ≤ r.tail pos) :
  m.read (r.head m) n = gm.bytes.read (r.data + pos.toNat % r.size.toNat) n
  := by
  have hlt := Nat.mod_lt pos.toNat r.size_pos
  rw [RingMap.head, h.cons]
  simp only [RingMap.tail] at hn
  apply ByteMem.read_congr
  intro i hi
  apply h.data
  · omega
  · omega

/-- Both consumers see the same header. -/
theorem Trails.header (h : Trails gm r prod pos m) (htail : 8 ≤ r.tail pos) :
  m.u16 (r.head m) = gm.bytes.u16 (r.data + pos.toNat % r.size.toNat) ∧
    m (r.head m + 2) = gm.bytes (r.data + pos.toNat % r.size.toNat + 2)
  := by
  constructor
  · rw [ByteMem.u16, ByteMem.u16, h.read (by omega)]
  · have hlt := Nat.mod_lt pos.toNat r.size_pos
    simp only [RingMap.tail] at htail
    rw [RingMap.head, h.cons]
    apply h.data
    · omega
    · omega

theorem sub_eq_zero_iff {a b : UInt32} :
  (a - b).toNat = 0 ↔ a = b
  := by
  rw [← UInt32.toNat_zero, UInt32.toNat_inj, UInt32.sub_eq_iff_eq_add, UInt32.zero_add]

theorem aligned_sub {a b : UInt32} (ha : a.toNat % 8 = 0) (hb : b.toNat % 8 = 0) :
  (a - b).toNat % 8 = 0
  := by
  rw [UInt32.toNat_sub]
  omega

/-- Where the host copies a record the guest pops it, and where the host finds it incomplete the
guest finds it truncated. -/
theorem Trails.front (h : Trails gm r prod pos m) {o : Option Bytes} (havail : 8 ≤ (prod - pos).toNat)
    (htail : 8 ≤ r.tail pos) (hscratch : maxRecordLen ≤ scratch.length)
    (hpeek : (peek dbg gm r.size r.data pos (prod - pos)).2 = .ok o) :
  match o with
  | none => r.front m scratch.length = .err .truncated
  | some rec => r.front m scratch.length = .ok (some rec.length) ∧
      m.read (r.head m) rec.length = rec
  := by
  obtain ⟨hlen, hkind⟩ := h.header htail
  have hread := fun n => h.read (n := n)
  have hav : r.avail m = (prod - pos).toNat := by
    rw [RingMap.avail, h.prod, h.cons, used]
  have htl : (r.size - (pos &&& (r.size - 1))).toNat = r.tail pos := r.toNat_contiguousTail pos
  have hfront : r.front m scratch.length = r.frontLen m scratch.length >>= fun n => .ok (some n) := by
    rw [RingMap.front, hav, if_neg (by omega), if_neg (by
      rw [h.cons]
      simp only [padMinLen, maxRecordLen] at hscratch ⊢
      omega)]
    rfl
  rw [hfront, RingMap.frontLen, hlen, hkind, hav, h.cons]
  simp only [peek, peekChecked, r.mask_toNat, htl] at hpeek
  generalize (gm.bytes.u16 (r.data + pos.toNat % r.size.toNat)).toNat = len at *
  split at hpeek
  · cases hpeek
  split at hpeek
  · cases hpeek
  split at hpeek
  · cases hpeek
  next hgood =>
  rw [if_neg hgood]
  split at hpeek
  · next hlong =>
    obtain rfl := Res.ok.inj hpeek
    rw [if_pos (.inl hlong)]
    rfl
  next havail' =>
  split at hpeek
  · cases hpeek
  next hend =>
  split at hpeek
  · cases hpeek
  obtain rfl := Res.ok.inj hpeek
  dsimp only
  rw [if_neg (by omega), if_neg (by omega), ByteMem.length_read, hread len (by omega)]
  exact ⟨rfl, rfl⟩

/-- The pops of the guest follow the walk of the host as far as it goes. -/
theorem popAll_walk {fuel walked : Nat} (hpos : pos.toNat % 8 = 0) (hprod : prod.toNat % 8 = 0)
    (h : Trails gm r prod pos m) (hscratch : maxRecordLen ≤ scratch.length)
    (hfuel : (prod - pos).toNat / 8 < fuel) (hwalked : (prod - pos).toNat / 8 < walked)
    {w : Walk} (hw : w = walk dbg gm r.size r.data walked pos (prod - pos))
    (hstop : w.stop = .ok ()) :
  (popAll dbg' r fuel ⟨m, scratch⟩).recs = w.recs ∧
  (popAll dbg' r fuel ⟨m, scratch⟩).mem.u32 r.cons = pos + UInt32.ofNat (Circular.span w.recs) ∧
  (popAll dbg' r fuel ⟨m, scratch⟩).stop
    = if pos + UInt32.ofNat (Circular.span w.recs) = prod then .ok none else .err .truncated
  := by
  induction walked generalizing pos m scratch fuel w with
  | zero => cases hwalked
  | succ walked ih =>
      obtain ⟨fuel, rfl⟩ := Nat.exists_eq_add_one_of_ne_zero (Nat.ne_zero_of_lt hfuel)
      have halign := aligned_sub hprod hpos
      have hav : r.avail m = (prod - pos).toNat := by
        rw [RingMap.avail, h.prod, h.cons, used]
      rw [walk] at hw
      by_cases hdone : (prod - pos).toNat < padMinLen
      · -- the indices meet
        have hdone' : (prod - pos).toNat < 8 := hdone
        have hzero : (prod - pos).toNat = 0 := by omega
        have hsame : pos = prod := (sub_eq_zero_iff.mp hzero).symm
        have hfront : r.front m scratch.length = .ok none := by
          rw [RingMap.front, hav, if_pos hzero]
        rw [if_pos hdone] at hw
        subst hw
        simp only [popAll, run_popInto_none hfront (by simp)]
        simpa [h.cons] using hsame
      rw [if_neg hdone] at hw
      have hmore : 8 ≤ (prod - pos).toNat := Nat.le_of_not_lt hdone
      have htail : 8 ≤ r.tail pos := (r.tail_rules hpos).2
      rcases hpeek : peek dbg gm r.size r.data pos (prod - pos) with ⟨io, (_ | rec) | e | _⟩
      all_goals
        rw [hpeek] at hw
        dsimp only at hw
      · -- the record at the position is not published as a whole
        have hfront := h.front (o := none) hmore htail hscratch (congrArg Prod.snd hpeek)
        have hne : pos ≠ prod := by
          rintro rfl
          simp at hmore
        subst hw
        simp only [popAll, run_popInto_none hfront (by simp)]
        simpa [h.cons] using hne
      · obtain ⟨hmin, hmod, hle, _⟩ := peek_rules (congrArg Prod.snd hpeek)
        obtain ⟨hfront, hrec⟩ := h.front (o := some rec) hmore htail hscratch
          (congrArg Prod.snd hpeek)
        cases hacc : accepts rec with
        | err e =>
            rw [hacc] at hw
            subst hw
            cases hstop
        | panic =>
            rw [hacc] at hw
            subst hw
            cases hstop
        | ok u =>
            rw [hacc] at hw
            dsimp only at hw
            have hlen : (UInt32.ofNat rec.length).toNat = rec.length :=
              Word.toNat_ofNat_le hle (prod - pos).toNat_lt
            have hsub : prod - pos - UInt32.ofNat rec.length
                = prod - (pos + UInt32.ofNat rec.length) := by
              simp only [UInt32.sub_eq_add_neg, UInt32.neg_add, UInt32.add_assoc]
            have hleft : (prod - (pos + UInt32.ofNat rec.length)).toNat
                = (prod - pos).toNat - rec.length := by
              rw [← hsub, UInt32.toNat_sub_of_le _ _ (UInt32.le_iff_toNat_le.mpr (by omega)), hlen]
            have hpos' : (pos + UInt32.ofNat rec.length).toNat % 8 = 0 := by
              rw [UInt32.toNat_add, hlen]
              omega
            have hlong : maxRecordLen ≤ (rec ++ scratch.drop rec.length).length := by
              rw [List.length_append, List.length_drop]
              omega
            have hfuel' : (prod - (pos + UInt32.ofNat rec.length)).toNat / 8 < fuel := by omega
            rw [hsub] at hw
            obtain ⟨hrecs, hcons, hend⟩ := ih hpos'
              (h.advance (pos + UInt32.ofNat rec.length)) hlong hfuel' (by omega) rfl
              (by rw [hw] at hstop; exact hstop)
            have hnext : pos + UInt32.ofNat (Circular.span w.recs)
                = pos + UInt32.ofNat rec.length + UInt32.ofNat (Circular.span
                    (walk dbg gm r.size r.data walked (pos + UInt32.ofNat rec.length)
                      (prod - (pos + UInt32.ofNat rec.length))).recs) := by
              rw [hw, Circular.span_cons, Word.add_ofNat_add]
            rw [hnext]
            have hpop : (Consumer.popInto dbg' r).run ⟨m, scratch⟩ = _ :=
              run_popInto_some hfront
            rw [hrec, h.cons] at hpop
            simp only [popAll, hpop, hcons, hend, hrecs]
            rw [hw]
            simp
      · subst hw
        cases hstop
      · subst hw
        cases hstop

end Step

/-! ### Agreement -/

section Agreement

variable {dbg : Bool} {r : RingMap} {ring : RingId} {h h' : HostState}
variable {out evs : List GuestEvent} {scratch : Bytes}

/-- What a drain that succeeds took off the ring: the walk went as far as it could, and the
consumer index moved behind it. -/
theorem drained_of_ok (hok : (drainRing dbg ring out).run h = (h', .ok evs)) :
  ∃ prod cons, (ringIndices h.ch ring).2 = .ok (prod, cons) ∧
    (ringWalk dbg h.ch ring prod cons).stop = .ok () ∧
    evs = out ++ (h.ch.drained dbg ring).filterMap (eventOf ring) ∧
    h'.ch = ((h.ch.drained dbg ring).foldl Channel.foldRec h.ch).storeCons ring
      (h.ch.drainPos dbg ring)
  := by
  have hrun := run_drainRing dbg ring out h rfl
  rw [hok] at hrun
  obtain ⟨hres, hch, _⟩ := drainOutcome_parts dbg ring h.ch
  obtain ⟨evs', hevs, hout⟩ := Res.bind_eq_ok.mp (congrArg Prod.snd hrun).symm
  rw [hevs] at hres
  obtain ⟨_, hend, hevs'⟩ := Res.bind_eq_ok.mp hres.symm
  rw [hend] at hch
  have hch' : h'.ch = (drainOutcome dbg ring h.ch).ch := congrArg (fun x => x.1.ch) hrun
  have hstop := hend
  rw [Channel.drainEnd] at hstop
  split at hstop
  · cases hstop
  · cases hstop
  next prod cons hidx =>
  refine ⟨prod, cons, hidx, ?_, ?_, ?_⟩
  · split at hstop
    · assumption
    · assumption
  · rw [← Res.ok.inj hout, ← Res.ok.inj hevs']
  · rw [hch', hch]

/-- The two consumers agree.  On a ring with aligned indices and arbitrary bytes, when the drain of
the host succeeds, repeated pops of the guest take the same records off the same ring, whole
strings of bytes, `Pad`s and unknown kinds too, and end at the same consumer index: with nothing on
an empty ring, or with an error where the drain left an incomplete record. -/
theorem consumers_agree (dbg' : Bool) (hat : RingAt r h.ch ring)
    (hprod : (h.ch.gm.bytes.u32 r.prod).toNat % 8 = 0)
    (hcons : (h.ch.gm.bytes.u32 r.cons).toNat % 8 = 0) (hscratch : scratch.length = maxRecordLen)
    (hok : (drainRing dbg ring out).run h = (h', .ok evs)) :
  evs = out ++ (h.ch.drained dbg ring).filterMap (eventOf ring) ∧
  h'.ch = ((h.ch.drained dbg ring).foldl Channel.foldRec h.ch).storeCons ring
    (h.ch.drainPos dbg ring) ∧
  ∀ fuel, (used (h.ch.gm.bytes.u32 r.prod) (h.ch.gm.bytes.u32 r.cons)).toNat / 8 < fuel →
    (popAll dbg' r fuel ⟨h.ch.gm.bytes, scratch⟩).recs = h.ch.drained dbg ring ∧
    (popAll dbg' r fuel ⟨h.ch.gm.bytes, scratch⟩).mem.u32 r.cons
      = h'.ch.gm.bytes.u32 r.cons ∧
    (popAll dbg' r fuel ⟨h.ch.gm.bytes, scratch⟩).stop
      = if h'.ch.gm.bytes.u32 r.cons = h.ch.gm.bytes.u32 r.prod then .ok none
        else .err .truncated
  := by
  obtain ⟨prod, cons, hidx, hstop, hevs, hch⟩ := drained_of_ok hok
  refine ⟨hevs, hch, ?_⟩
  have hdrained : h.ch.drained dbg ring = (ringWalk dbg h.ch ring prod cons).recs := by
    rw [Channel.drained, hidx]
  obtain ⟨rfl, rfl, _⟩ := ringIndices_eq_ok hidx
  have hend : h'.ch.gm.bytes.u32 r.cons = h.ch.drainPos dbg ring := by
    have hplace := foldRecs_place (h.ch.drained dbg ring) h.ch
    rw [hch, Channel.storeCons, hat.cons, hplace.consGpa]
    apply ByteMem.u32_write_self
  intro fuel hfuel
  rw [hend, Channel.drainPos, hdrained]
  rw [← hat.prod, ← hat.cons] at hstop ⊢
  rw [ringWalk, ← hat.data, ← hat.size] at hstop ⊢
  apply popAll_walk hcons hprod ⟨rfl, rfl, fun _ _ _ => rfl⟩ (Nat.le_of_eq hscratch.symm) hfuel
    (Nat.lt_succ_self _) rfl hstop

/-- Ring W of the canonical channel. -/
def sampleRing : RingMap := ringOf canonicalChannel .W

/-- A `Pad` and a frame mark. -/
def sampleRecs : List Bytes := [padBytes 16 0, eventBytes 1 7 0 (.frameMark 9)]

/-- The canonical channel with these records on ring W. -/
def sampleHost : HostState :=
  { ch := canonicalChannel.withMem (sampleRing.publish canonicalChannel.gm.bytes sampleRecs)
    sink := []
    io := [] }

theorem sampleHost_queue :
  Queue sampleRing sampleHost.ch.gm.bytes sampleRecs
  := by
  have hempty : Queue sampleRing canonicalChannel.gm.bytes [] :=
    ⟨Nat.zero_le _, rfl, trivial, by simp, rfl⟩
  apply hempty.publish
  · exact ⟨by decide, by decide, trivial⟩
  · decide
  · intro rec hrec
    simp only [sampleRecs, List.mem_cons, List.not_mem_nil, or_false] at hrec
    rcases hrec with rfl | rfl
    · apply wellFramed_padBytes 0 (by decide) (by decide) (by decide)
    · apply wellFramed_eventBytes
      decide

/-- The drain takes both records, and so do the pops. -/
theorem consumers_agree_sample :
  (popAll true sampleRing 9 ⟨sampleHost.ch.gm.bytes, Bytes.zeros maxRecordLen⟩).recs
    = sampleHost.ch.drained true .W
  := by
  have hat : RingAt sampleRing canonicalChannel .W := ringAt_canonical .W rfl
  have hat' : RingAt sampleRing sampleHost.ch .W := hat.congr rfl rfl
  have haccepts : ∀ rec ∈ sampleRecs, accepts rec = .ok () := by decide
  obtain ⟨h', hok, _⟩ := run_drainRing_queue true sampleHost [] mapped_canonical
    accepted_canonical hat' sampleHost_queue haccepts
  have hscratch : (Bytes.zeros maxRecordLen).length = maxRecordLen := List.length_replicate ..
  have hagree := consumers_agree true hat' sampleHost_queue.prod_aligned
    sampleHost_queue.aligned hscratch hok
  apply (hagree.2.2 9 _).1
  rw [sampleHost_queue.used_eq]
  decide

end Agreement

end Protocol
