import DetGuest.Host.Drain
import DetGuest.Wire.Queue

/-!
# What a drain sees

The drain of a ring reads records until the published bytes end or a record is not
acceptable, and only then looks at the channel again.  The walk below is that sequence of
records as a function of guest memory; a drain folds its records into the channel.
-/

namespace Host

open Wire

/-- The outcome of copying a record of the given length and kind, with the accesses to
guest memory. -/
def peekChecked (gm : GuestMem) (data off len : Nat) (kind : UInt8) (tail avail : UInt32) :
    List Access × Res WireError (Option Bytes) :=
  if len % recordAlign ≠ 0 ∨ len < minLen kind ∨ len > maxRecordLen then
    ([.read (data + off) padMinLen], .err (.decode .badLen))
  else if len > avail.toNat then
    ([.read (data + off) padMinLen], .ok none)
  else if len > tail.toNat then
    ([.read (data + off) padMinLen], .err (.decode .badLen))
  else
    ([.read (data + off) padMinLen, .read (data + off) len],
      match gm.readErr (data + off) len with
      | some e => .err (.mem e)
      | none => .ok (some (gm.bytes.read (data + off) len)))

/-- The outcome of copying the record at `pos`, with the accesses to guest memory. -/
def peek (dbg : Bool) (gm : GuestMem) (size : UInt32) (data : Nat) (pos avail : UInt32) :
    List Access × Res WireError (Option Bytes) :=
  let off := (pos &&& (size - 1)).toNat
  let tail := size - (pos &&& (size - 1))
  if dbg = true ∧ ¬ padMinLen ≤ tail.toNat then
    ([], .panic)
  else
    match gm.readErr (data + off) padMinLen with
    | some e => ([.read (data + off) padMinLen], .err (.mem e))
    | none =>
        peekChecked gm data off (gm.bytes.u16 (data + off)).toNat (gm.bytes (data + off + 2))
          tail avail

/-- Whether the drain accepts a record: it decodes, or its kind is unknown. -/
def accepts (rec : Bytes) : Res WireError Unit :=
  match decodeEvent rec with
  | .ok _ => .ok ()
  | .err (.unknownKind _) => .ok ()
  | .err e => .err (.decode e)
  | .panic => .panic

/-- The channel with a record folded into its tables. -/
def Channel.foldRec (ch : Channel) (rec : Bytes) : Channel :=
  match decodeEvent rec with
  | .ok (hdr, payload) =>
      match toOwned hdr.flags payload with
      | none => ch
      | some owned => ch.foldPayload owned
  | .err (.unknownKind _) => { ch with unknownKindRecords := ch.unknownKindRecords + 1 }
  | _ => ch

/-- The event of a record, if it has one. -/
def eventOf (ring : RingId) (rec : Bytes) : Option GuestEvent :=
  match decodeEvent rec with
  | .ok (hdr, payload) =>
      (toOwned hdr.flags payload).map fun owned =>
        { ring
          seq := hdr.seq
          vnanos := hdr.vnanos
          truncated := hdr.flags &&& flagTruncated != 0
          rawRecord := rec
          payload := owned }
  | _ => none

/-- The accepted records from a position on, why the walk stopped behind them, and the
accesses to guest memory. -/
structure Walk where
  recs : List Bytes
  stop : Res WireError Unit
  io : List Access

/-- Walk over the published records from `pos` on. -/
def walk (dbg : Bool) (gm : GuestMem) (size : UInt32) (data : Nat) :
    Nat → UInt32 → UInt32 → Walk
  | 0, _, _ => { recs := [], stop := .ok (), io := [] }
  | fuel + 1, pos, avail =>
      if avail.toNat < padMinLen then
        { recs := [], stop := .ok (), io := [] }
      else
        match peek dbg gm size data pos avail with
        | (io, .err e) => { recs := [], stop := .err e, io }
        | (io, .panic) => { recs := [], stop := .panic, io }
        | (io, .ok none) => { recs := [], stop := .ok (), io }
        | (io, .ok (some rec)) =>
            match accepts rec with
            | .err e => { recs := [], stop := .err e, io }
            | .panic => { recs := [], stop := .panic, io }
            | .ok () =>
                let len := UInt32.ofNat rec.length
                let w := walk dbg gm size data fuel (pos + len) (avail - len)
                { recs := rec :: w.recs, stop := w.stop, io := io ++ w.io }

/-! ### A drain folds its walk -/

/-- The part of a copy behind the peek, for a record of the given length and kind. -/
theorem run_copyRecord_checked (data off len : Nat) (kind : UInt8) (tail avail : UInt32)
    (h : HostState) :
  (do
      Exec.failIf (len % recordAlign ≠ 0 ∨ len < minLen kind ∨ len > maxRecordLen)
        (.decode .badLen)
      if len > avail.toNat then
        pure none
      else do
        Exec.failIf (len > tail.toNat) (.decode .badLen)
        let rec ← Exec.mapErr .mem (gmRead (data + off) len)
        pure (some rec) : Exec HostState WireError (Option Bytes)).run
          { h with io := h.io ++ [.read (data + off) padMinLen] }
    = ({ h with io := h.io ++ (peekChecked h.ch.gm data off len kind tail avail).1 },
        (peekChecked h.ch.gm data off len kind tail avail).2)
  := by
  rw [peekChecked]
  by_cases hbad : len % recordAlign ≠ 0 ∨ len < minLen kind ∨ len > maxRecordLen
  · rw [if_pos hbad, Exec.run_bind_of_err (Exec.run_failIf_of hbad _)]
  rw [if_neg hbad, Exec.run_bind_of_ok (Exec.run_failIf_of_not hbad _)]
  by_cases havail : len > avail.toNat
  · rw [if_pos havail, if_pos havail]
    rfl
  rw [if_neg havail, if_neg havail]
  by_cases hend : len > tail.toNat
  · rw [if_pos hend, Exec.run_bind_of_err (Exec.run_failIf_of hend _)]
  rw [if_neg hend, Exec.run_bind_of_ok (Exec.run_failIf_of_not hend _)]
  cases hrec : h.ch.gm.readErr (data + off) len with
  | some e => simp [run_gmRead, GuestMem.read, hrec]
  | none => simp [run_gmRead, GuestMem.read, hrec]

theorem run_copyRecord (dbg : Bool) (size : UInt32) (data : Nat) (pos avail : UInt32)
    (h : HostState) :
  (copyRecord dbg size data pos avail).run h
    = ({ h with io := h.io ++ (peek dbg h.ch.gm size data pos avail).1 },
        (peek dbg h.ch.gm size data pos avail).2)
  := by
  simp only [copyRecord, peek]
  generalize hoff : (pos &&& (size - 1)).toNat = off
  generalize htail : size - (pos &&& (size - 1)) = tail
  by_cases hassert : dbg = true ∧ ¬ padMinLen ≤ tail.toNat
  · rw [if_pos hassert, hassert.1, Exec.run_bind_of_panic (Exec.run_debugAssert_of_not hassert.2 _)]
    simp
  have hdbg : dbg = true → padMinLen ≤ tail.toNat := by tauto
  rw [if_neg hassert, Exec.run_bind_of_ok (Exec.run_debugAssert_of_imp hdbg _)]
  cases hread : h.ch.gm.readErr (data + off) padMinLen with
  | some e =>
      have hgm : (Exec.mapErr WireError.mem (gmRead (data + off) padMinLen)).run h
          = ({ h with io := h.io ++ [.read (data + off) padMinLen] }, .err (.mem e)) := by
        rw [Exec.run_mapErr, run_gmRead, GuestMem.read, hread]
        rfl
      rw [Exec.run_bind_of_err hgm]
  | none =>
      have hgm : (Exec.mapErr WireError.mem (gmRead (data + off) padMinLen)).run h
          = ({ h with io := h.io ++ [.read (data + off) padMinLen] },
              .ok (h.ch.gm.bytes.read (data + off) padMinLen)) := by
        rw [Exec.run_mapErr, run_gmRead, GuestMem.read, hread]
        rfl
      have hslice : ((h.ch.gm.bytes.read (data + off) padMinLen).slice 0 2 : Res WireError Bytes)
          = .ok (h.ch.gm.bytes.read (data + off) 2) := by
        rw [Bytes.slice_of_le (by omega) (by simp [padMinLen]), ByteMem.extract_read (by decide)]
        rfl
      have hbyte : ((h.ch.gm.bytes.read (data + off) padMinLen).byte 2 : Res WireError UInt8)
          = .ok (h.ch.gm.bytes (data + off + 2)) := rfl
      rw [Exec.run_bind_of_ok hgm, hslice, hbyte, Exec.run_bind_of_ok (Exec.run_lift _ _),
        Exec.run_bind_of_ok (Exec.run_lift _ _)]
      apply run_copyRecord_checked

theorem run_foldRecord (ring : RingId) (rec : Bytes) (h : HostState) :
  (foldRecord ring rec).run h
    = ({ h with ch := h.ch.foldRec rec }, accepts rec >>= fun _ => .ok (eventOf ring rec))
  := by
  simp only [foldRecord, Channel.foldRec, accepts, eventOf]
  rcases decodeEvent rec with ⟨hdr, payload⟩ | e | _
  · simp only
    cases toOwned hdr.flags payload with
    | none => rfl
    | some owned => rfl
  · cases e with
    | unknownKind kind => rfl
    | _ => rfl
  · rfl

/-- Two channels that differ in their tables only. -/
structure SamePlace (a b : Channel) : Prop where
  gm : a.gm = b.gm
  base : a.base = b.base
  header : a.header = b.header
  nextSeqC : a.nextSeqC = b.nextSeqC
  nextSeqI : a.nextSeqI = b.nextSeqI
  unmatchedInjects : a.unmatchedInjects = b.unmatchedInjects

theorem SamePlace.refl (ch : Channel) :
  SamePlace ch ch
  := ⟨rfl, rfl, rfl, rfl, rfl, rfl⟩

theorem SamePlace.trans {a b c : Channel} (hab : SamePlace a b) (hbc : SamePlace b c) :
  SamePlace a c
  := ⟨hab.gm.trans hbc.gm, hab.base.trans hbc.base, hab.header.trans hbc.header,
    hab.nextSeqC.trans hbc.nextSeqC, hab.nextSeqI.trans hbc.nextSeqI,
    hab.unmatchedInjects.trans hbc.unmatchedInjects⟩

theorem foldPayload_place (ch : Channel) (owned : OwnedPayload) :
  SamePlace (ch.foldPayload owned) ch
  := by
  cases owned with
  | nameIntern nameId name reachableDecl =>
      simp only [Channel.foldPayload]
      split
      · constructor <;> rfl
      · constructor <;> rfl
  | _ => constructor <;> rfl

theorem foldRec_place (ch : Channel) (rec : Bytes) :
  SamePlace (ch.foldRec rec) ch
  := by
  rw [Channel.foldRec]
  split
  · split
    · apply SamePlace.refl
    · apply foldPayload_place
  · constructor <;> rfl
  · apply SamePlace.refl

theorem foldRecs_place (recs : List Bytes) (ch : Channel) :
  SamePlace (recs.foldl Channel.foldRec ch) ch
  := by
  induction recs generalizing ch with
  | nil => apply SamePlace.refl
  | cons rec recs ih =>
      apply (ih (ch.foldRec rec)).trans
      apply foldRec_place

/-- A record the drain does not accept changes nothing. -/
theorem foldRec_of_refused {ch : Channel} {rec : Bytes} (h : accepts rec ≠ .ok ()) :
  ch.foldRec rec = ch
  := by
  rw [accepts] at h
  rw [Channel.foldRec]
  split at h
  · contradiction
  · contradiction
  · rename_i e hne hd
    rw [hd]
    split
    · rename_i hok
      cases hok
    · rename_i hunk
      cases hunk
      exact absurd rfl (hne _)
    · rfl
  · rename_i hd
    rw [hd]

/-- The loop of a drain folds the records of the walk into the channel, and gives the
position behind them and their events. -/
theorem run_drainLoop (dbg : Bool) (ring : RingId) (size : UInt32) (data fuel : Nat)
    (pos avail : UInt32) (out : List GuestEvent) (h : HostState) {w : Walk}
    (hw : w = walk dbg h.ch.gm size data fuel pos avail) :
  (drainLoop dbg ring size data fuel pos avail out).run h
    = ({ h with ch := w.recs.foldl Channel.foldRec h.ch, io := h.io ++ w.io },
        w.stop >>= fun _ => .ok (pos + UInt32.ofNat (Circular.span w.recs),
          out ++ w.recs.filterMap (eventOf ring)))
  := by
  induction fuel generalizing pos avail out h w with
  | zero =>
      subst hw
      simp [drainLoop, walk]
  | succ fuel ih =>
      rw [drainLoop]
      rw [walk] at hw
      by_cases hdone : avail.toNat < padMinLen
      · rw [if_pos hdone] at hw
        subst hw
        rw [if_pos hdone]
        simp
      rw [if_neg hdone] at hw ⊢
      have hcopy := run_copyRecord dbg size data pos avail h
      rcases hpeek : peek dbg h.ch.gm size data pos avail with ⟨io, (_ | rec) | e | _⟩
      all_goals
        rw [hpeek] at hw hcopy
        dsimp only at hw hcopy
      · subst hw
        rw [Exec.run_bind_of_ok hcopy]
        simp
      · have hfold := run_foldRecord ring rec { h with io := h.io ++ io }
        rw [Exec.run_bind_of_ok hcopy]
        dsimp only
        cases hacc : accepts rec with
        | ok u =>
            rw [hacc] at hw hfold
            have hgm : (h.ch.foldRec rec).gm = h.ch.gm := (foldRec_place _ _).gm
            rw [Exec.run_bind_of_ok hfold, ih _ _ _ _ rfl]
            dsimp only
            rw [hgm]
            subst hw
            simp only [List.foldl_cons, Circular.span_cons, List.append_assoc,
              Word.add_ofNat_add, List.filterMap_cons]
            cases eventOf ring rec with
            | none => rfl
            | some ev => simp
        | err e =>
            rw [hacc] at hw hfold
            subst hw
            rw [Exec.run_bind_of_err hfold, foldRec_of_refused (by simp [hacc])]
            rfl
        | panic =>
            rw [hacc] at hw hfold
            subst hw
            rw [Exec.run_bind_of_panic hfold, foldRec_of_refused (by simp [hacc])]
            rfl
      · subst hw
        rw [Exec.run_bind_of_err hcopy]
        simp
      · subst hw
        rw [Exec.run_bind_of_panic hcopy]
        simp

/-! ### The outcome of a drain -/

/-- The indices of a ring as the drain reads them, unless they are refused. -/
def ringIndices (ch : Channel) (ring : RingId) :
    List Access × Res WireError (UInt32 × UInt32) :=
  match ch.gm.readErr (ch.prodGpa ring) 4 with
  | some e => ([.read (ch.prodGpa ring) 4], .err (.mem e))
  | none =>
      ([.read (ch.prodGpa ring) 4, .read (ch.consGpa ring) 4],
        match ch.gm.readErr (ch.consGpa ring) 4 with
        | some e => .err (.mem e)
        | none =>
            let prod := ch.gm.bytes.u32 (ch.prodGpa ring)
            let cons := ch.gm.bytes.u32 (ch.consGpa ring)
            if prod - cons > (ch.ringDesc ring).size then .err (.corruptIndices ring)
            else .ok (prod, cons))

/-- The walk of a ring from its consumer index on. -/
def ringWalk (dbg : Bool) (ch : Channel) (ring : RingId) (prod cons : UInt32) : Walk :=
  walk dbg ch.gm (ch.ringDesc ring).size (ch.dataGpa ring) ((prod - cons).toNat / 8 + 1) cons
    (prod - cons)

/-- Store a consumer index that moved, and report it. -/
def bump (ch : Channel) (ring : RingId) (cons pos : UInt32) (io : List Access)
    (evs : List GuestEvent) : Outcome WireError (List GuestEvent) :=
  if pos = cons then
    { ch, ops := [], io, res := .ok evs }
  else
    match ch.gm.writeErr (ch.consGpa ring) 4 with
    | some e =>
        { ch, ops := [], io := io ++ [.write (ch.consGpa ring) (Bytes.ofU32 pos)],
          res := .err (.mem e) }
    | none =>
        { ch := { ch with gm := { ch.gm with
            bytes := ch.gm.bytes.write (ch.consGpa ring) (Bytes.ofU32 pos) } }
          ops := [.consBump ring pos]
          io := io ++ [.write (ch.consGpa ring) (Bytes.ofU32 pos)]
          res := .ok evs }

/-- The outcome of the drain of one ring. -/
def drainOutcome (dbg : Bool) (ring : RingId) (ch : Channel) :
    Outcome WireError (List GuestEvent) :=
  match ringIndices ch ring with
  | (io, .err e) => { ch, ops := [], io, res := .err e }
  | (io, .panic) => { ch, ops := [], io, res := .panic }
  | (io, .ok (prod, cons)) =>
      let w := ringWalk dbg ch ring prod cons
      let ch' := w.recs.foldl Channel.foldRec ch
      match w.stop with
      | .err e => { ch := ch', ops := [], io := io ++ w.io, res := .err e }
      | .panic => { ch := ch', ops := [], io := io ++ w.io, res := .panic }
      | .ok () =>
          bump ch' ring cons (cons + UInt32.ofNat (Circular.span w.recs)) (io ++ w.io)
            (w.recs.filterMap (eventOf ring))

theorem SamePlace.consGpa {a b : Channel} (h : SamePlace a b) (ring : RingId) :
  a.consGpa ring = b.consGpa ring
  := by
  rw [Channel.consGpa, h.base, Channel.consGpa]

/-- The last part of a drain: store a consumer index that moved, and report it. -/
theorem run_bump {ring : RingId} {pos cons : UInt32} {evs : List GuestEvent} {gpa : Nat}
    (out : List GuestEvent) (h : HostState) (io : List Access) (hgpa : gpa = h.ch.consGpa ring)
    {o : Outcome WireError (List GuestEvent)} (ho : o = bump h.ch ring cons pos io evs) :
  (do
      if pos ≠ cons then do
        Exec.mapErr .mem (gmWriteU32 gpa pos)
        report (.consBump ring pos)
      pure (out ++ evs) : Exec HostState WireError (List GuestEvent)).run
        { h with io := h.io ++ io }
    = ({ ch := o.ch, sink := h.sink ++ o.ops, io := h.io ++ o.io },
        o.res >>= fun evs => .ok (out ++ evs))
  := by
  subst ho hgpa
  rw [bump]
  by_cases hpos : pos = cons
  · simp [hpos]
  have hwrite := run_gmWriteU32 WireError.mem (h.ch.consGpa ring) pos { h with io := h.io ++ io }
  dsimp only at hwrite
  rw [if_neg hpos, if_pos hpos]
  cases herr : h.ch.gm.writeErr (h.ch.consGpa ring) 4 with
  | some e =>
      rw [herr] at hwrite
      rw [Exec.run_bind_of_err hwrite]
      simp
  | none =>
      rw [herr] at hwrite
      rw [Exec.run_bind_of_ok hwrite]
      simp [report]

/-- The drain of a ring does what its outcome says. -/
theorem run_drainRing (dbg : Bool) (ring : RingId) (out : List GuestEvent) (h : HostState)
    {o : Outcome WireError (List GuestEvent)} (ho : o = drainOutcome dbg ring h.ch) :
  (drainRing dbg ring out).run h
    = ({ ch := o.ch, sink := h.sink ++ o.ops, io := h.io ++ o.io },
        o.res >>= fun evs => .ok (out ++ evs))
  := by
  rw [drainOutcome, ringIndices] at ho
  rw [drainRing, Exec.run_bind_of_ok (Exec.run_get _)]
  have hprod := run_gmReadU32 WireError.mem (h.ch.prodGpa ring) h
  cases hperr : h.ch.gm.readErr (h.ch.prodGpa ring) 4 with
  | some e =>
      rw [hperr] at ho hprod
      subst ho
      rw [Exec.run_bind_of_err hprod]
      simp
  | none =>
      rw [hperr] at ho hprod
      have hcons := run_gmReadU32 WireError.mem (h.ch.consGpa ring)
        { h with io := h.io ++ [.read (h.ch.prodGpa ring) 4] }
      rw [Exec.run_bind_of_ok hprod]
      dsimp only at hcons ho
      cases hcerr : h.ch.gm.readErr (h.ch.consGpa ring) 4 with
      | some e =>
          rw [hcerr] at ho hcons
          subst ho
          rw [Exec.run_bind_of_err hcons]
          simp
      | none =>
          rw [hcerr] at ho hcons
          rw [Exec.run_bind_of_ok hcons]
          generalize h.ch.gm.bytes.u32 (h.ch.prodGpa ring) = prod at *
          generalize h.ch.gm.bytes.u32 (h.ch.consGpa ring) = cons at *
          by_cases hfull : prod - cons > (h.ch.ringDesc ring).size
          · rw [if_pos hfull] at ho
            subst ho
            rw [Exec.run_bind_of_err (Exec.run_failIf_of hfull _)]
            simp
          rw [if_neg hfull] at ho
          rw [Exec.run_bind_of_ok (Exec.run_failIf_of_not hfull _)]
          dsimp only at ho
          have hloop := run_drainLoop dbg ring (h.ch.ringDesc ring).size (h.ch.dataGpa ring)
            ((prod - cons).toNat / 8 + 1) cons (prod - cons) out
            { h with io := h.io ++ [.read (h.ch.prodGpa ring) 4]
                ++ [.read (h.ch.consGpa ring) 4] } rfl
          dsimp only at hloop
          rw [← ringWalk] at hloop
          generalize ringWalk dbg h.ch ring prod cons = w at *
          cases hstop : w.stop with
          | err e =>
              rw [hstop] at ho hloop
              subst ho
              rw [Exec.run_bind_of_err hloop]
              simp
          | panic =>
              rw [hstop] at ho hloop
              subst ho
              rw [Exec.run_bind_of_panic hloop]
              simp
          | ok u =>
              rw [hstop] at ho hloop
              have hgpa := ((foldRecs_place w.recs h.ch).consGpa ring).symm
              have hbump := run_bump out
                { h with ch := w.recs.foldl Channel.foldRec h.ch }
                ([.read (h.ch.prodGpa ring) 4, .read (h.ch.consGpa ring) 4] ++ w.io) hgpa ho
              rw [Exec.run_bind_of_ok hloop]
              simpa using hbump

/-! ### Walking over whole records -/

section Laid

variable {dbg : Bool} {gm : GuestMem} {size : UInt32} {data : Nat}

/-- Reads inside the data area are not refused. -/
def Readable (gm : GuestMem) (size : UInt32) (data : Nat) : Prop :=
  ∀ gpa len, data ≤ gpa → gpa + len ≤ data + size.toNat → gm.readErr gpa len = none

/-- The walk finds the record that lies at its position. -/
theorem peek_laid {pos avail : UInt32} {rec : Bytes} {recs : List Bytes}
    (hpow : Word.isPowerOfTwo size) (hread : Readable gm size data)
    (hlaid : Circular.Laid gm.bytes data size.toNat pos.toNat (rec :: recs))
    (hframed : WellFramed rec) (havail : rec.length ≤ avail.toNat) :
  (peek dbg gm size data pos avail).2 = .ok (some rec)
  := by
  obtain ⟨hend, hrec, _⟩ := hlaid
  obtain ⟨hmod, hmin, hmax⟩ := hframed.rules
  obtain ⟨hdr, hr, hlen⟩ := hframed
  have hoff := Word.toNat_and_mask hpow pos
  have htail : (size - (pos &&& (size - 1))).toNat = size.toNat - pos.toNat % size.toNat :=
    toNat_contiguousTail hpow pos
  have hmin8 : 8 ≤ rec.length := hmin
  obtain ⟨len, kind, flags, seq, hb⟩ := exists_framed hmin8
  rw [hb] at hr
  obtain ⟨rfl, rfl, _, _, _, _, hkind, _⟩ := framing_of_readFrom _ _ _ _ _ hr
  have hu16 : gm.bytes.u16 (data + pos.toNat % size.toNat) = hdr.len := by
    have h2 : gm.bytes.read (data + pos.toNat % size.toNat) 2 = Bytes.ofU16 hdr.len := by
      rw [← ByteMem.take_read (show 2 ≤ rec.length by omega), hrec, hb]
      rfl
    rw [ByteMem.u16, h2, Bytes.toU16_ofU16]
  have hk : gm.bytes (data + pos.toNat % size.toNat + 2) = hdr.kind := by
    have h2 : rec[2]? = some hdr.kind := by
      rw [hb]
      rfl
    rw [← hrec, ByteMem.getElem?_read, if_pos (by omega)] at h2
    apply Option.some.inj h2
  simp only [peek, hoff, htail]
  rw [if_neg (by simp only [padMinLen]; omega), hread _ _ (by omega)
    (by simp only [padMinLen]; omega)]
  dsimp only
  rw [hu16, hk, hlen, peekChecked, if_neg (by omega), if_neg (by omega), if_neg (by omega),
    hread _ _ (by omega) (by omega), hrec]

/-- A walk over whole records that the drain accepts finds exactly these records. -/
theorem walk_laid {fuel : Nat} {pos avail : UInt32} {recs : List Bytes}
    (hpow : Word.isPowerOfTwo size) (hread : Readable gm size data)
    (hlaid : Circular.Laid gm.bytes data size.toNat pos.toNat recs)
    (hframed : ∀ rec ∈ recs, WellFramed rec) (haccepts : ∀ rec ∈ recs, accepts rec = .ok ())
    (havail : avail.toNat = Circular.span recs) (hfuel : Circular.span recs / 8 < fuel) :
  (walk dbg gm size data fuel pos avail).recs = recs
    ∧ (walk dbg gm size data fuel pos avail).stop = .ok ()
  := by
  induction recs generalizing fuel pos avail with
  | nil =>
      obtain ⟨fuel, rfl⟩ := Nat.exists_eq_add_one_of_ne_zero (show fuel ≠ 0 by omega)
      rw [walk, if_pos (by rw [havail]; decide)]
      exact ⟨rfl, rfl⟩
  | cons rec recs ih =>
      obtain ⟨fuel, rfl⟩ := Nat.exists_eq_add_one_of_ne_zero (show fuel ≠ 0 by omega)
      have hrec := hframed rec (by simp)
      obtain ⟨_, hmin, _⟩ := hrec.rules
      have hmin8 : 8 ≤ rec.length := hmin
      rw [Circular.span_cons] at havail hfuel
      have hlt := avail.toNat_lt
      have htoNat : (UInt32.ofNat rec.length).toNat = rec.length :=
        Word.toNat_ofNat_le (show rec.length ≤ avail.toNat by omega) hlt
      have hpeek : (peek dbg gm size data pos avail).2 = .ok (some rec) :=
        peek_laid hpow hread hlaid hrec (by omega)
      have hsub : (avail - UInt32.ofNat rec.length).toNat = Circular.span recs := by
        rw [UInt32.toNat_sub_of_le _ _ (UInt32.le_iff_toNat_le.mpr (by omega)), htoNat]
        omega
      have hlaid' := (Circular.laid_mod_congr (Word.toNat_add_mod hpow pos _)).mpr hlaid.2.2
      obtain ⟨hrecs, hstop⟩ := ih hlaid' (fun x hx => hframed x (by simp [hx]))
        (fun x hx => haccepts x (by simp [hx])) hsub (show Circular.span recs / 8 < fuel by omega)
      rw [walk, if_neg (by simp only [padMinLen]; omega)]
      rcases hp : peek dbg gm size data pos avail with ⟨io, res⟩
      rw [hp] at hpeek
      dsimp only at hpeek
      subst hpeek
      simp only [haccepts rec (by simp), hrecs, hstop]
      trivial

end Laid

end Host
