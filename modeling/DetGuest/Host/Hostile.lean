import DetGuest.Host.Faults
import DetGuest.Wire.Framing

/-!
# Hostile guest memory

The guest chooses the index cells and the ring bytes.  The host trusts positions to be
aligned: a drain that comes to stand less than eight bytes before the end of a ring reads
past it, and a push whose `Pad` does not fit panics.  These are the only ways in which the
guest reaches a panic or an access outside the rings.
-/

namespace Host

open Wire

/-- The first address of an access. -/
def Access.addr : Access → Nat
  | .read gpa _ => gpa
  | .write gpa _ => gpa

/-- The number of bytes of an access. -/
def Access.len : Access → Nat
  | .read _ len => len
  | .write _ bs => bs.length

/-- An access to an index cell of a ring. -/
def Access.OfCell (ch : Channel) (ring : RingId) (a : Access) : Prop :=
  (a.addr = ch.prodGpa ring ∨ a.addr = ch.consGpa ring) ∧ a.len = 4

/-- An access inside a data area. -/
def Access.Inside (data size : Nat) (a : Access) : Prop :=
  data ≤ a.addr ∧ a.addr + a.len ≤ data + size

/-- An access to an index cell of a ring, or inside its data area. -/
def Access.OfRing (ch : Channel) (ring : RingId) (a : Access) : Prop :=
  a.OfCell ch ring ∨ a.Inside (ch.dataGpa ring) (ch.ringDesc ring).size.toNat

/-! ### Accesses of a walk -/

section Walks

variable (dbg : Bool) (gm : GuestMem) {size : UInt32} (data : Nat)

/-- The read of the first eight bytes at a position. -/
def headRead (size : UInt32) (data : Nat) (pos : UInt32) : Access :=
  .read (data + (pos &&& (size - 1)).toNat) 8

theorem accepts_ne_panic (rec : Bytes) :
  accepts rec ≠ .panic
  := by
  have hdecode : decodeEvent rec ≠ .panic := decodeEvent_ne_panic rec
  rw [accepts]
  split
  · simp
  · simp
  · simp
  · contradiction

/-- With eight bytes in front of the end of the ring, a copy stays inside. -/
theorem peek_inside {pos : UInt32} (avail : UInt32) (hpow : Word.isPowerOfTwo size)
    (htail : 8 ≤ (contiguousTail pos size).toNat) :
  (peek dbg gm size data pos avail).2 ≠ .panic ∧
    ∀ a ∈ (peek dbg gm size data pos avail).1, a.Inside data size.toNat
  := by
  have hoff := Word.toNat_and_mask hpow pos
  have hmod := Nat.mod_lt pos.toNat (Word.toNat_pos hpow)
  have htail' := toNat_contiguousTail hpow pos
  rw [contiguousTail] at htail htail'
  have hpad : padMinLen = 8 := rfl
  have hhead : Access.Inside data size.toNat
      (.read (data + (pos &&& (size - 1)).toNat) padMinLen) := by
    refine ⟨Nat.le_add_right _ _, ?_⟩
    simp only [Access.addr, Access.len]
    omega
  simp only [peek, peekChecked]
  rw [if_neg (by omega)]
  split
  · simpa using hhead
  split
  · simpa using hhead
  split
  · simpa using hhead
  split
  · simpa using hhead
  next hlong =>
  refine ⟨?_, ?_⟩
  · dsimp only
    split <;> simp
  · intro a ha
    rw [List.mem_cons, List.mem_singleton] at ha
    rcases ha with rfl | rfl
    · exact hhead
    · refine ⟨Nat.le_add_right _ _, ?_⟩
      simp only [Access.addr, Access.len]
      omega

/-- With less than eight bytes in front of the end of the ring, the debug build panics and
the release build reads past the end. -/
theorem peek_short {pos : UInt32} (avail : UInt32) (htail : (contiguousTail pos size).toNat < 8) :
  (dbg = true → (peek dbg gm size data pos avail).2 = .panic) ∧
    (dbg = false → headRead size data pos ∈ (peek dbg gm size data pos avail).1)
  := by
  have hpad : padMinLen = 8 := rfl
  rw [contiguousTail] at htail
  constructor
  · rintro rfl
    rw [peek, if_pos ⟨rfl, by omega⟩]
  · rintro rfl
    simp only [peek, peekChecked, headRead, ← hpad]
    rw [if_neg (by simp)]
    split
    · simp
    split
    · simp
    split
    · simp
    split
    · simp
    · simp

/-- A walk stands less than eight bytes before the end of the ring with eight bytes to go. -/
def Overhangs (size pos : UInt32) (left : Nat) : Prop :=
  8 ≤ left ∧ (contiguousTail pos size).toNat < 8

/-- One step of a walk: it takes a record and goes on, or ends at this position. -/
theorem walk_step (size : UInt32) (fuel : Nat) (pos : UInt32) {avail : UInt32}
    (hmore : padMinLen ≤ avail.toNat) :
  (∃ rec, (peek dbg gm size data pos avail).2 = .ok (some rec) ∧ accepts rec = .ok () ∧
      walk dbg gm size data (fuel + 1) pos avail
        = { recs := rec :: (walk dbg gm size data fuel (pos + UInt32.ofNat rec.length)
              (avail - UInt32.ofNat rec.length)).recs
            stop := (walk dbg gm size data fuel (pos + UInt32.ofNat rec.length)
              (avail - UInt32.ofNat rec.length)).stop
            io := (peek dbg gm size data pos avail).1
              ++ (walk dbg gm size data fuel (pos + UInt32.ofNat rec.length)
                (avail - UInt32.ofNat rec.length)).io }) ∨
    ∃ stop, (stop = .panic ↔ (peek dbg gm size data pos avail).2 = .panic) ∧
      walk dbg gm size data (fuel + 1) pos avail
        = { recs := [], stop, io := (peek dbg gm size data pos avail).1 }
  := by
  rw [walk, if_neg (by omega)]
  rcases hpeek : peek dbg gm size data pos avail with ⟨io, (_ | rec) | e | _⟩
  · exact Or.inr ⟨.ok (), by simp, rfl⟩
  · have hmin := (peek_rules (congrArg Prod.snd hpeek)).1
    cases hacc : accepts rec with
    | ok u => exact Or.inl ⟨rec, rfl, hacc, by simp only [hacc]⟩
    | err e => exact Or.inr ⟨.err e, by simp, by simp only [hacc]⟩
    | panic => exact absurd hacc (accepts_ne_panic _)
  · exact Or.inr ⟨.err e, by simp, rfl⟩
  · exact Or.inr ⟨.panic, by simp, rfl⟩

/-- A walk that does not come to overhang stays inside; one that does panics or reads past
the end. -/
theorem walk_accesses {fuel : Nat} {pos avail : UInt32} (hpow : Word.isPowerOfTwo size)
    (hfuel : avail.toNat / 8 < fuel) {w : Walk} (hw : w = walk dbg gm size data fuel pos avail)
    {last : UInt32} (hlast : last = pos + UInt32.ofNat (Circular.span w.recs)) :
  (¬ Overhangs size last (avail.toNat - Circular.span w.recs) →
    w.stop ≠ .panic ∧ ∀ a ∈ w.io, a.Inside data size.toNat) ∧
  (Overhangs size last (avail.toNat - Circular.span w.recs) →
    (dbg = true → w.stop = .panic) ∧ (dbg = false → headRead size data last ∈ w.io))
  := by
  have hpad : padMinLen = 8 := rfl
  induction fuel generalizing pos avail w with
  | zero => omega
  | succ fuel ih =>
      by_cases hdone : avail.toNat < padMinLen
      · rw [walk, if_pos hdone] at hw
        subst hw
        refine ⟨by simp, ?_⟩
        rintro ⟨hleft, _⟩
        simp only [Circular.span_nil] at hleft
        omega
      have hshort := @peek_short dbg gm size data pos avail
      have hinside := @peek_inside dbg gm size data pos avail hpow
      rcases walk_step dbg gm data size fuel pos (show padMinLen ≤ avail.toNat by omega)
        with ⟨rec, hpeek, hacc, hstep⟩ | ⟨stop, hstop, hstep⟩
      · obtain ⟨hmin, _, havail, htail⟩ := peek_rules hpeek
        have hlen : (UInt32.ofNat rec.length).toNat = rec.length :=
          Word.toNat_ofNat_le havail avail.toNat_lt
        have hsub : (avail - UInt32.ofNat rec.length).toNat = avail.toNat - rec.length := by
          rw [UInt32.toNat_sub_of_le _ _ (UInt32.le_iff_toNat_le.mpr (by omega)), hlen]
        rw [hstep] at hw
        subst hw
        simp only [Circular.span_cons] at hlast ⊢
        have hrest : (avail - UInt32.ofNat rec.length).toNat / 8 < fuel := by omega
        obtain ⟨ihin, ihout⟩ := ih hrest rfl (hlast.trans (Word.add_ofNat_add _ _ _).symm)
        rw [hsub, Nat.sub_sub] at ihin ihout
        constructor
        · intro hnot
          obtain ⟨hpanic, hall⟩ := ihin hnot
          refine ⟨hpanic, ?_⟩
          intro a ha
          rcases List.mem_append.mp ha with ha | ha
          · apply (hinside (by omega)).2 a ha
          · apply hall a ha
        · intro hover
          obtain ⟨hpanic, hread⟩ := ihout hover
          exact ⟨hpanic, fun hrel => List.mem_append_right _ (hread hrel)⟩
      · rw [hstep] at hw
        subst hw
        have hpos : last = pos := by
          rw [hlast]
          exact UInt32.add_zero _
        simp only [Circular.span_nil, Nat.sub_zero, hpos, Overhangs]
        constructor
        · intro hnot
          obtain ⟨hpanic, hall⟩ := hinside (by omega)
          exact ⟨fun h => hpanic (hstop.mp h), hall⟩
        · rintro ⟨_, htail⟩
          exact ⟨fun hdbg => hstop.mpr ((hshort htail).1 hdbg), (hshort htail).2⟩

end Walks

/-! ### Accesses of a drain -/

/-- The drain of a ring comes to overhang: behind its accepted records less than eight bytes
are left before the end of the ring, but at least eight are published. -/
def Channel.Overhangs (ch : Channel) (dbg : Bool) (ring : RingId) : Prop :=
  match (ringIndices ch ring).2 with
  | .ok (prod, cons) =>
      Host.Overhangs (ch.ringDesc ring).size (ch.drainPos dbg ring)
        ((prod - cons).toNat - Circular.span (ch.drained dbg ring))
  | _ => False

/-- An outcome without a panic whose accesses are all to one ring. -/
def Outcome.Sheltered {ε α : Type} (o : Outcome ε α) (ch : Channel) (ring : RingId) : Prop :=
  o.res ≠ .panic ∧ ∀ a ∈ o.io, a.OfRing ch ring

section Drains

variable {dbg : Bool} {ch : Channel} {ring : RingId}

theorem ringIndices_ofRing (ch : Channel) (ring : RingId) :
  ∀ a ∈ (ringIndices ch ring).1, a.OfRing ch ring
  := by
  have hprod : Access.OfRing ch ring (.read (ch.prodGpa ring) 4) := Or.inl ⟨Or.inl rfl, rfl⟩
  have hcons : Access.OfRing ch ring (.read (ch.consGpa ring) 4) := Or.inl ⟨Or.inr rfl, rfl⟩
  rw [ringIndices]
  split
  · simpa using hprod
  · simp [hprod, hcons]

/-- A bump adds at most the write of the consumer cell. -/
theorem bump_io (ch : Channel) (ring : RingId) (cons pos : UInt32) (io : List Access)
    (evs : List GuestEvent) :
  (∀ a ∈ (bump ch ring cons pos io evs).io, a ∈ io ∨ a.OfCell ch ring) ∧
    (∀ a ∈ io, a ∈ (bump ch ring cons pos io evs).io) ∧
    (bump ch ring cons pos io evs).res ≠ .panic
  := by
  have hwrite : Access.OfCell ch ring (.write (ch.consGpa ring) (Bytes.ofU32 pos)) :=
    ⟨Or.inr rfl, Bytes.length_ofU32 pos⟩
  rw [bump]
  split
  · exact ⟨fun a ha => Or.inl ha, fun a ha => ha, by simp⟩
  have hmem : ∀ a ∈ io ++ [Access.write (ch.consGpa ring) (Bytes.ofU32 pos)],
      a ∈ io ∨ a.OfCell ch ring := by
    intro a ha
    rcases List.mem_append.mp ha with ha | ha
    · exact Or.inl ha
    · rw [List.mem_singleton] at ha
      subst ha
      exact Or.inr hwrite
  split
  · exact ⟨hmem, fun a ha => List.mem_append_left _ ha, by simp⟩
  · exact ⟨hmem, fun a ha => List.mem_append_left _ ha, by simp⟩

/-- The accesses and the result of the drain of a ring come from its walk. -/
theorem drainOutcome_accesses (dbg : Bool) {prod cons : UInt32}
    (hidx : (ringIndices ch ring).2 = .ok (prod, cons)) {w : Walk}
    (hw : w = ringWalk dbg ch ring prod cons) :
  (∀ a ∈ (drainOutcome dbg ring ch).io, a ∈ w.io ∨ a.OfRing ch ring) ∧
    (∀ a ∈ w.io, a ∈ (drainOutcome dbg ring ch).io) ∧
    ((drainOutcome dbg ring ch).res = .panic ↔ w.stop = .panic)
  := by
  subst hw
  have hcells := ringIndices_ofRing ch ring
  rcases hrid : ringIndices ch ring with ⟨io, res⟩
  rw [hrid] at hidx hcells
  dsimp only at hidx hcells
  subst hidx
  simp only [drainOutcome, hrid]
  have hsplit : ∀ a ∈ io ++ (ringWalk dbg ch ring prod cons).io,
      a ∈ (ringWalk dbg ch ring prod cons).io ∨ a.OfRing ch ring := by
    intro a ha
    rcases List.mem_append.mp ha with ha | ha
    · exact Or.inr (hcells a ha)
    · exact Or.inl ha
  cases (ringWalk dbg ch ring prod cons).stop with
  | err e => exact ⟨hsplit, fun a ha => List.mem_append_right _ ha, by simp⟩
  | panic => exact ⟨hsplit, fun a ha => List.mem_append_right _ ha, by simp⟩
  | ok u =>
      have hplace := foldRecs_place (ringWalk dbg ch ring prod cons).recs ch
      have hcell : ∀ a : Access, a.OfCell
          ((ringWalk dbg ch ring prod cons).recs.foldl Channel.foldRec ch) ring →
          a.OfRing ch ring := by
        intro a ha
        left
        rw [Access.OfCell, Channel.prodGpa, Channel.consGpa, hplace.base] at ha
        exact ha
      obtain ⟨hio, hmem, hres⟩ := bump_io
        ((ringWalk dbg ch ring prod cons).recs.foldl Channel.foldRec ch) ring cons
        (cons + UInt32.ofNat (Circular.span (ringWalk dbg ch ring prod cons).recs))
        (io ++ (ringWalk dbg ch ring prod cons).io)
        ((ringWalk dbg ch ring prod cons).recs.filterMap (eventOf ring))
      refine ⟨?_, fun a ha => hmem a (List.mem_append_right _ ha), ?_⟩
      · intro a ha
        rcases hio a ha with ha | ha
        · apply hsplit a ha
        · exact Or.inr (hcell a ha)
      · simp [hres]

/-- A drain that does not come to overhang does not panic and stays in the ring. -/
theorem drainOutcome_sheltered (hacc : Accepted ch.header) (hsafe : ¬ ch.Overhangs dbg ring) :
  (drainOutcome dbg ring ch).Sheltered ch ring
  := by
  rw [Channel.Overhangs] at hsafe
  rcases hidx : ringIndices ch ring with ⟨io, ⟨prod, cons⟩ | e | _⟩
  · have hok := congrArg Prod.snd hidx
    obtain ⟨_, hcons, _⟩ := ringIndices_eq_ok hok
    obtain ⟨hio, _, hres⟩ := drainOutcome_accesses dbg hok rfl
    have hdrained : ch.drained dbg ring = (ringWalk dbg ch ring prod cons).recs := by
      rw [Channel.drained, hidx]
    rw [hidx] at hsafe
    dsimp only at hsafe
    rw [Channel.drainPos, hdrained, ← hcons] at hsafe
    obtain ⟨hpanic, hall⟩ := (walk_accesses dbg ch.gm (ch.dataGpa ring)
      (hacc.valid ring).size_pow (Nat.lt_succ_self _) rfl rfl).1 hsafe
    refine ⟨fun h => hpanic (hres.mp h), ?_⟩
    intro a ha
    rcases hio a ha with ha | ha
    · exact Or.inr (hall a ha)
    · exact ha
  · have hcells := ringIndices_ofRing ch ring
    rw [hidx] at hcells
    simpa [Outcome.Sheltered, drainOutcome, hidx] using hcells
  · exact absurd (congrArg Prod.snd hidx) (ringIndices_ne_panic ch ring)

/-- A drain that comes to overhang panics or reads past the end of the ring. -/
theorem drainOutcome_exposed (hacc : Accepted ch.header) (hover : ch.Overhangs dbg ring) :
  (dbg = true → (drainOutcome dbg ring ch).res = .panic) ∧
    (dbg = false → ∃ pos, (contiguousTail pos (ch.ringDesc ring).size).toNat < 8 ∧
      headRead (ch.ringDesc ring).size (ch.dataGpa ring) pos ∈ (drainOutcome dbg ring ch).io)
  := by
  rw [Channel.Overhangs] at hover
  rcases hidx : ringIndices ch ring with ⟨io, ⟨prod, cons⟩ | e | _⟩
  · have hok := congrArg Prod.snd hidx
    obtain ⟨_, hcons, _⟩ := ringIndices_eq_ok hok
    obtain ⟨_, hmem, hres⟩ := drainOutcome_accesses dbg hok rfl
    have hdrained : ch.drained dbg ring = (ringWalk dbg ch ring prod cons).recs := by
      rw [Channel.drained, hidx]
    rw [hidx] at hover
    dsimp only at hover
    rw [Channel.drainPos, hdrained, ← hcons] at hover
    obtain ⟨hpanic, hread⟩ := (walk_accesses dbg ch.gm (ch.dataGpa ring)
      (hacc.valid ring).size_pow (Nat.lt_succ_self _) rfl rfl).2 hover
    exact ⟨fun hdbg => hres.mpr (hpanic hdbg), fun hrel => ⟨_, hover.2, hmem _ (hread hrel)⟩⟩
  · rw [hidx] at hover
    exact hover.elim
  · rw [hidx] at hover
    exact hover.elim

/-- A read past the end of a ring is an access to no ring. -/
theorem headRead_not_ofRing (hacc : Accepted ch.header) {pos : UInt32}
    (htail : (contiguousTail pos (ch.ringDesc ring).size).toNat < 8) (other : RingId) :
  ¬ (headRead (ch.ringDesc ring).size (ch.dataGpa ring) pos).OfRing ch other
  := by
  have hpow : Word.isPowerOfTwo (ch.ringDesc ring).size := (hacc.valid ring).size_pow
  have hge : offRingCData ≤ (ch.ringDesc ring).offset.toNat := (hacc.valid ring).offset_ge
  have hoff := Word.toNat_and_mask hpow pos
  have hmod := Nat.mod_lt pos.toNat (Word.toNat_pos hpow)
  have hcell := cell_bounds other
  rw [toNat_contiguousTail hpow] at htail
  simp only [offManifest, offRingCData] at hcell hge
  rintro (⟨hcells, _⟩ | ⟨hlo, hhi⟩)
  · simp only [headRead, Access.addr, Channel.prodGpa, Channel.consGpa, Channel.dataGpa] at hcells
    omega
  · simp only [headRead, Access.addr, Access.len, Channel.dataGpa] at hlo hhi
    by_cases heq : ring = other
    · subst heq
      omega
    · have hdisjoint : ¬ RingsOverlap (ch.ringDesc ring) (ch.ringDesc other) :=
        hacc.disjoint ring other heq
      rw [RingsOverlap] at hdisjoint
      omega

end Drains

/-! ### Accesses of a push -/

/-- A push that has room finds a tail too short for its record and unfit for a `Pad`. -/
def Channel.PadBlocked (ch : Channel) (dbg : Bool) (ring : RingId) (total : Nat) : Prop :=
  ch.gm.readErr (ch.prodGpa ring) 4 = none ∧ ch.gm.readErr (ch.consGpa ring) 4 = none ∧
    let prod := ch.gm.bytes.u32 (ch.prodGpa ring)
    let cons := ch.gm.bytes.u32 (ch.consGpa ring)
    let size := (ch.ringDesc ring).size
    ¬ free prod cons size < bytesNeeded prod size (UInt32.ofNat total) ∧
      (contiguousTail prod size).toNat < total ∧
      ¬ PadFits dbg (contiguousTail prod size).toNat

section Pushes

variable {dbg : Bool} {ch : Channel} {ring : RingId} {total : Nat} {bytes : UInt32 → Bytes}
  {seq : UInt32}

/-- A push panics exactly when its `Pad` is blocked. -/
theorem pushOutcome_panic_iff :
  (pushOutcome dbg ring total bytes seq ch).res = .panic ↔ ch.PadBlocked dbg ring total
  := by
  rw [pushOutcome, Channel.PadBlocked]
  cases ch.gm.readErr (ch.prodGpa ring) 4 with
  | some e => simp
  | none =>
      cases ch.gm.readErr (ch.consGpa ring) 4 with
      | some e => simp
      | none =>
          dsimp only
          split
          · next hfull => simp [hfull]
          split
          · next hfull hblocked => simp [hfull, hblocked]
          · next hfull hfits =>
            have hwrites : ∀ ws, (writeAll ch.gm ws).res.mapErr PushError.mem ≠ .panic := by
              intro ws
              cases hres : (writeAll ch.gm ws).res with
              | ok u => simp
              | err e => simp
              | panic => exact absurd hres (writeAll_res ch.gm ws)
            constructor
            · intro hpanic
              rcases Res.bind_eq_panic.mp hpanic with hpanic | ⟨_, _, hpanic⟩
              · exact absurd hpanic (hwrites _)
              · cases hpanic
            · rintro ⟨_, _, _, htail, hpad⟩
              exact absurd ⟨htail, hpad⟩ hfits

/-- The writes that are performed are among those asked for. -/
theorem mem_writeAll_io {gm : GuestMem} {ws : List (Nat × Bytes)} :
  ∀ a ∈ (writeAll gm ws).io, ∃ w ∈ ws, a = .write w.1 w.2
  := by
  induction ws generalizing gm with
  | nil => simp [writeAll]
  | cons x ws ih =>
      obtain ⟨b, bs⟩ := x
      intro a ha
      rw [writeAll] at ha
      split at ha
      · rw [List.mem_singleton] at ha
        exact ⟨(b, bs), by simp, ha⟩
      · rcases List.mem_cons.mp ha with rfl | ha
        · exact ⟨(b, bs), by simp, rfl⟩
        · obtain ⟨w, hw, rfl⟩ := ih a ha
          exact ⟨w, by simp [hw], rfl⟩

/-- A push accesses only its ring, whatever the guest wrote. -/
theorem pushOutcome_ofRing (dbg : Bool) (ring : RingId) (seq : UInt32)
    (hacc : Accepted ch.header) (hmax : total ≤ maxRecordLen)
    (hbytes : ∀ s, (bytes s).length = total) :
  ∀ a ∈ (pushOutcome dbg ring total bytes seq ch).io, a.OfRing ch ring
  := by
  have hpow : Word.isPowerOfTwo (ch.ringDesc ring).size := (hacc.valid ring).size_pow
  have hprod : Access.OfRing ch ring (.read (ch.prodGpa ring) 4) := Or.inl ⟨Or.inl rfl, rfl⟩
  have hcons : Access.OfRing ch ring (.read (ch.consGpa ring) 4) := Or.inl ⟨Or.inr rfl, rfl⟩
  rw [pushOutcome]
  split
  · simpa using hprod
  split
  · simp [hprod, hcons]
  dsimp only
  split
  · simp [hprod, hcons]
  next hroom =>
  split
  · simp [hprod, hcons]
  next hfits =>
  have hwhole := whole_pushRecs_of_room seq hpow hmax hbytes hroom (fun hlt => by
    by_contra hmin
    exact hfits ⟨hlt, fun hpad => hmin hpad.1⟩)
  intro a ha
  rcases List.mem_append.mp ha with ha | ha
  · rw [List.mem_cons, List.mem_singleton] at ha
    rcases ha with rfl | rfl
    · exact hprod
    · exact hcons
  · obtain ⟨w, hw, rfl⟩ := mem_writeAll_io a ha
    rcases List.mem_append.mp hw with hw | hw
    · exact Or.inr (placed_inside hpow hwhole w hw)
    · rw [List.mem_singleton] at hw
      subst hw
      exact Or.inl ⟨Or.inl rfl, Bytes.length_ofU32 _⟩

end Pushes

/-! ### The three calls -/

/-- A call of the host that works on a ring. -/
inductive HostCall where
  | drainEvents
  | pushCommand (cmd : Command)
  | pushWorkloadCtrl (rec : WorkloadCtrl)

/-- Run a call, and tell whether it panics. -/
def HostCall.run (dbg : Bool) (call : HostCall) (h : HostState) : HostState × Bool :=
  match call with
  | .drainEvents =>
      let (h, res) := (Host.drainEvents dbg).run h
      (h, res.isPanic)
  | .pushCommand cmd =>
      let (h, res) := (Host.pushCommand dbg cmd).run h
      (h, res.isPanic)
  | .pushWorkloadCtrl rec =>
      let (h, res) := (Host.pushWorkloadCtrl dbg rec).run h
      (h, res.isPanic)

/-- The rings a call works on. -/
def HostCall.rings : HostCall → List RingId
  | .drainEvents => [.A, .W]
  | .pushCommand _ => [.C]
  | .pushWorkloadCtrl _ => [.I]

/-- A call that does not panic, and whose accesses are all to the index cells and inside the
data areas of its rings. -/
def HostCall.Sheltered (dbg : Bool) (call : HostCall) (h : HostState) : Prop :=
  (call.run dbg h).2 = false ∧
    ∃ io, (call.run dbg h).1.io = h.io ++ io ∧ ∀ a ∈ io, ∃ ring ∈ call.rings, a.OfRing h.ch ring

/-- The condition on guest memory: no drain that takes place comes to overhang, and no
`Pad` that is needed is blocked. -/
def HostCall.Harmless (dbg : Bool) (call : HostCall) (ch : Channel) : Prop :=
  match call with
  | .drainEvents =>
      ¬ ch.Overhangs dbg .A ∧ (ch.drainEnd dbg .A = .ok () → ¬ ch.Overhangs dbg .W)
  | .pushCommand cmd => ¬ ch.PadBlocked dbg .C (recordLen (commandPayloadLen cmd))
  | .pushWorkloadCtrl _ => ¬ ch.PadBlocked dbg .I (recordLen 8)

/-- A call whose result and accesses are known is sheltered exactly when they are. -/
theorem sheltered_of_run {dbg panics : Bool} {call : HostCall} {h h' : HostState}
    {io : List Access} (hrun : call.run dbg h = (h', panics)) (hio : h'.io = h.io ++ io) :
  call.Sheltered dbg h ↔
    panics = false ∧ ∀ a ∈ io, ∃ ring ∈ call.rings, a.OfRing h.ch ring
  := by
  rw [HostCall.Sheltered, hrun]
  dsimp only
  rw [hio]
  constructor
  · rintro ⟨hpanics, io', hsame, hall⟩
    rw [List.append_cancel_left_eq] at hsame
    subst hsame
    exact ⟨hpanics, hall⟩
  · rintro ⟨hpanics, hall⟩
    exact ⟨hpanics, io, rfl, hall⟩

/-- The push of one record is sheltered exactly when its `Pad` is not blocked. -/
theorem keepSeq_sheltered_iff {dbg : Bool} {call : HostCall} {h : HostState} {ring : RingId}
    {total : Nat} {bytes : UInt32 → Bytes} {seq : UInt32} {store : Channel → UInt32 → Channel}
    {o : Outcome PushError Unit} (hacc : Accepted h.ch.header) (hmax : total ≤ maxRecordLen)
    (hbytes : ∀ s, (bytes s).length = total)
    (ho : o = (pushOutcome dbg ring total bytes seq h.ch).keepSeq store)
    (hrings : call.rings = [ring])
    (hrun : call.run dbg h
      = ({ ch := o.ch, sink := h.sink ++ o.ops, io := h.io ++ o.io }, o.res.isPanic)) :
  call.Sheltered dbg h ↔ ¬ h.ch.PadBlocked dbg ring total
  := by
  have hres : o.res = .panic ↔ (pushOutcome dbg ring total bytes seq h.ch).res = .panic := by
    rw [ho, Outcome.keepSeq]
    cases (pushOutcome dbg ring total bytes seq h.ch).res <;> simp
  have hio : o.io = (pushOutcome dbg ring total bytes seq h.ch).io := by
    rw [ho, Outcome.keepSeq]
    cases (pushOutcome dbg ring total bytes seq h.ch).res <;> rfl
  have hall := pushOutcome_ofRing dbg ring seq hacc hmax hbytes
  rw [sheltered_of_run hrun rfl, hrings, hio, ← Bool.not_eq_true, Res.isPanic_iff, hres,
    pushOutcome_panic_iff]
  simp only [List.mem_singleton, exists_eq_left]
  exact and_iff_left hall

section Beside

variable {dbg : Bool} {a b : RingId} {ch ch' : Channel}

theorem Beside.ofRing (h : Beside a ch ch') (access : Access) :
  access.OfRing ch' b ↔ access.OfRing ch b
  := by
  obtain ⟨hprod, hcons, hdata, hdesc⟩ := h.places b
  rw [Access.OfRing, Access.OfCell, hprod, hcons, hdata, hdesc, Access.OfRing, Access.OfCell]

theorem Beside.overhangs (h : Beside a ch ch') (hacc : Accepted ch.header) (hab : a ≠ b) :
  ch'.Overhangs dbg b ↔ ch.Overhangs dbg b
  := by
  obtain ⟨_, hcons, _, hdesc⟩ := h.places b
  simp only [Channel.Overhangs, Channel.drainPos, h.ringIndices hab, h.drained hacc hab, hcons,
    hdesc, (h.cells hab).2]

end Beside

/-- An access to one of the two rings of a drain. -/
def Access.OfDrain (ch : Channel) (a : Access) : Prop :=
  a.OfRing ch .A ∨ a.OfRing ch .W

/-- The drain of both rings is sheltered when that of ring A is and, if it succeeds, that of
ring W is. -/
theorem drainEvents_sheltered (dbg : Bool) (h : HostState)
    {oA oW : Outcome WireError (List GuestEvent)} (hA : oA = drainOutcome dbg .A h.ch)
    (hW : oW = drainOutcome dbg .W oA.ch) :
  HostCall.Sheltered dbg .drainEvents h ↔
    (oA.res ≠ .panic ∧ ∀ a ∈ oA.io, a.OfDrain h.ch) ∧
      ∀ evs, oA.res = .ok evs → oW.res ≠ .panic ∧ ∀ a ∈ oW.io, a.OfDrain h.ch
  := by
  have hrun := run_drainEvents dbg h hA hW
  have hcall : HostCall.run dbg .drainEvents h
      = (((drainEvents dbg).run h).1, ((drainEvents dbg).run h).2.isPanic) := rfl
  have hrings : ∀ a : Access, (∃ ring ∈ HostCall.drainEvents.rings, a.OfRing h.ch ring)
      ↔ a.OfDrain h.ch := by
    intro a
    simp [HostCall.rings, Access.OfDrain]
  rw [hrun] at hcall
  cases hres : oA.res with
  | ok evs =>
      rw [hres] at hcall
      rw [sheltered_of_run hcall (List.append_assoc _ _ _)]
      simp only [hrings, ← Bool.not_eq_true, Res.isPanic_iff, Res.bind_eq_panic, List.mem_append,
        or_imp, forall_and]
      simp only [reduceCtorEq, and_false, exists_false, or_false, ne_eq, not_false_eq_true,
        true_and, Res.ok.injEq, forall_eq']
      tauto
  | err e =>
      rw [hres] at hcall
      rw [sheltered_of_run hcall rfl]
      simp [hrings, Res.isPanic]
  | panic =>
      rw [hres] at hcall
      rw [sheltered_of_run hcall rfl]
      simp [Res.isPanic]

/-- One ring of a drain is sheltered exactly when it does not overhang. -/
theorem drainOutcome_sheltered_iff {dbg : Bool} {ch : Channel} {ring : RingId}
    (hacc : Accepted ch.header) (hring : ring = .A ∨ ring = .W) :
  ((drainOutcome dbg ring ch).res ≠ .panic ∧ ∀ a ∈ (drainOutcome dbg ring ch).io, a.OfDrain ch)
    ↔ ¬ ch.Overhangs dbg ring
  := by
  constructor
  · rintro ⟨hquiet, hall⟩ hover
    obtain ⟨hpanic, hread⟩ := drainOutcome_exposed hacc hover
    cases dbg with
    | true => exact hquiet (hpanic rfl)
    | false =>
        obtain ⟨pos, htail, hmem⟩ := hread rfl
        rcases hall _ hmem with hofA | hofW
        · exact headRead_not_ofRing hacc htail .A hofA
        · exact headRead_not_ofRing hacc htail .W hofW
  · intro hsafe
    obtain ⟨hquiet, hall⟩ := drainOutcome_sheltered hacc hsafe
    refine ⟨hquiet, ?_⟩
    intro a ha
    rcases hring with rfl | rfl
    · exact Or.inl (hall a ha)
    · exact Or.inr (hall a ha)

/-- The drain of both rings is sheltered exactly when no ring it comes to overhangs. -/
theorem drainEvents_sheltered_iff (dbg : Bool) (h : HostState) (hacc : Accepted h.ch.header) :
  HostCall.Sheltered dbg .drainEvents h ↔ HostCall.Harmless dbg .drainEvents h.ch
  := by
  have hbeside := drainOutcome_beside dbg .A h.ch
  have haccA : Accepted (drainOutcome dbg .A h.ch).ch.header := by
    rw [hbeside.header]
    exact hacc
  have hover : (drainOutcome dbg .A h.ch).ch.Overhangs dbg .W ↔ h.ch.Overhangs dbg .W :=
    hbeside.overhangs hacc (by decide)
  have hok : (∃ evs, (drainOutcome dbg .A h.ch).res = .ok evs)
      ↔ h.ch.drainEnd dbg .A = .ok () := by
    rw [(drainOutcome_parts dbg .A h.ch).1]
    cases h.ch.drainEnd dbg .A <;> simp
  have hofDrain : ∀ a : Access, a.OfDrain (drainOutcome dbg .A h.ch).ch ↔ a.OfDrain h.ch := by
    intro a
    rw [Access.OfDrain, hbeside.ofRing, hbeside.ofRing, Access.OfDrain]
  have hW := @drainOutcome_sheltered_iff dbg _ .W haccA (Or.inr rfl)
  simp only [hofDrain, hover] at hW
  rw [drainEvents_sheltered dbg h rfl rfl, drainOutcome_sheltered_iff hacc (Or.inl rfl), hW,
    HostCall.Harmless, ← hok]
  simp

/-- **Hostile guest memory.**  Whatever the guest wrote, a call of the host panics or
accesses memory outside its rings exactly when a drain comes to overhang or a `Pad` is
blocked. -/
theorem sheltered_iff_harmless (dbg : Bool) (call : HostCall) (h : HostState)
    (hacc : Accepted h.ch.header) :
  call.Sheltered dbg h ↔ call.Harmless dbg h.ch
  := by
  cases call with
  | drainEvents => apply drainEvents_sheltered_iff dbg h hacc
  | pushCommand cmd =>
      have hmax : recordLen (commandPayloadLen cmd) ≤ maxRecordLen := by
        rw [commandPayloadLen_eq]
        exact cmd.recordLen_le
      apply keepSeq_sheltered_iff hacc hmax (fun s => length_commandBytes s cmd)
        (rfl : commandOutcome dbg cmd h.ch = _) rfl
      simp only [HostCall.run, run_pushCommand dbg cmd h (hacc.valid .C).size_pow rfl]
  | pushWorkloadCtrl rec =>
      apply keepSeq_sheltered_iff hacc (by decide) (fun s => length_workloadCtrlBytes s 0 rec)
        (rfl : workloadCtrlOutcome dbg rec h.ch = _) rfl
      simp only [HostCall.run, run_pushWorkloadCtrl dbg rec h (hacc.valid .I).size_pow rfl]

/-- Ring A with its consumer index four bytes before the end and eight bytes published. -/
def skewed : HostState :=
  { ch := canonicalChannel.withMem
      ((canonicalMem.bytes.write (RingId.A.consOffset) (Bytes.ofU32 0xFFFC)).write
        (RingId.A.prodOffset) (Bytes.ofU32 0x10004))
    sink := []
    io := [] }

/-- The debug build panics there, and the release build reads past the end of ring A. -/
theorem not_sheltered_skewed :
  ¬ HostCall.Sheltered true .drainEvents skewed ∧ ¬ HostCall.Sheltered false .drainEvents skewed
  := by
  have hpanic : (HostCall.run true .drainEvents skewed).2 = true := by decide +kernel
  have hread : (HostCall.run false .drainEvents skewed).1.io
      = [.read 0x200 4, .read 0x240 4, .read 0x1FFFC 8] := by decide +kernel
  constructor
  · intro hsheltered
    rw [hsheltered.1] at hpanic
    cases hpanic
  · rintro ⟨_, io, hio, hall⟩
    rw [hread] at hio
    have hin : Access.read 0x1FFFC 8 ∈ io := by
      have hnil : skewed.io = [] := rfl
      rw [hnil, List.nil_append] at hio
      rw [← hio]
      simp
    obtain ⟨ring, _, hring⟩ := hall _ hin
    have hacc : Accepted skewed.ch.header := accepted_canonical
    exact @headRead_not_ofRing skewed.ch .A hacc 0xFFFC (by decide) ring hring

/-- Rings of a hostile guest: behind a `Pad` at the end of ring A there are bytes that are no
record, the indices of ring C stand eight bytes before the end with junk published, and those of
ring I are wild. -/
def besieged : HostState :=
  { ch := canonicalChannel.withMem <|
      ((((((((canonicalMem.bytes.write 0x1FFF0 (padBytes 16 9)).write
        0x10000 (List.replicate 24 0xEE)).write
        RingId.A.consOffset (Bytes.ofU32 0xFFF0)).write
        RingId.A.prodOffset (Bytes.ofU32 0x10018)).write
        RingId.C.consOffset (Bytes.ofU32 0x3F01)).write
        RingId.C.prodOffset (Bytes.ofU32 0x3FF8)).write
        RingId.I.consOffset (Bytes.ofU32 0x12345678)).write
        RingId.I.prodOffset (Bytes.ofU32 5))
    sink := []
    io := [] }

theorem harmless_besieged (dbg : Bool) :
  HostCall.Harmless dbg .drainEvents besieged.ch ∧
    HostCall.Harmless dbg (.pushCommand .reverifyRegions) besieged.ch ∧
    HostCall.Harmless dbg (.pushWorkloadCtrl (.quiesceReq 3)) besieged.ch
  := by
  refine ⟨⟨?_, ?_⟩, ?_, ?_⟩
  · have hidx : (ringIndices besieged.ch .A).2 = .ok (0x10018, 0xFFF0) := by decide +kernel
    rw [Channel.Overhangs, hidx]
    dsimp only
    rintro ⟨_, htail⟩
    revert htail
    cases dbg <;> decide +kernel
  · intro hok
    have herr : besieged.ch.drainEnd dbg .A = .err (.decode .badLen) := by
      cases dbg <;> decide +kernel
    rw [herr] at hok
    cases hok
  · rintro ⟨_, _, _, _, hblocked⟩
    apply hblocked
    cases dbg <;> decide +kernel
  · rintro ⟨_, _, _, htail, _⟩
    revert htail
    decide +kernel

/-- The drain fails, the command is published behind a `Pad`, and ring I takes nothing: nothing
outside the rings is touched, and no call panics. -/
theorem sheltered_besieged :
  ((drainEvents true).run besieged).2 = .err (.decode .badLen) ∧
    HostCall.Sheltered true .drainEvents besieged ∧
    HostCall.Sheltered false .drainEvents besieged ∧
    HostCall.Sheltered true (.pushCommand .reverifyRegions) besieged ∧
    HostCall.Sheltered true (.pushWorkloadCtrl (.quiesceReq 3)) besieged
  := by
  have hacc : Accepted besieged.ch.header := accepted_canonical
  obtain ⟨hdrain, hcommand, hctrl⟩ := harmless_besieged true
  exact ⟨by decide +kernel, (sheltered_iff_harmless true _ besieged hacc).mpr hdrain,
    (sheltered_iff_harmless false _ besieged hacc).mpr (harmless_besieged false).1,
    (sheltered_iff_harmless true _ besieged hacc).mpr hcommand,
    (sheltered_iff_harmless true _ besieged hacc).mpr hctrl⟩

end Host
