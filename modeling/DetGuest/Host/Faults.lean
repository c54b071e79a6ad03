import DetGuest.Host.Rings

/-!
# Drains that fail

A drain can stop at any record of either ring.  This module says, from the memory before
the call, which records the drain accepts, where it stops, and what it leaves behind; and
when a failed drain leaves no trace.
-/

namespace Host

open Wire

/-! ### Records of a walk -/

section Walks

variable {dbg : Bool} {gm gm' : GuestMem} {size : UInt32} {data : Nat}

/-- The rules for a record that a walk copies. -/
theorem peek_rules {pos avail : UInt32} {rec : Bytes}
    (h : (peek dbg gm size data pos avail).2 = .ok (some rec)) :
  8 ≤ rec.length ∧ rec.length % 8 = 0 ∧ rec.length ≤ avail.toNat ∧
    rec.length ≤ (contiguousTail pos size).toNat
  := by
  simp only [peek, peekChecked] at h
  rw [contiguousTail]
  split at h
  · cases h
  split at h
  · cases h
  split at h
  · cases h
  next hbad =>
  split at h
  · cases h
  next havail =>
  split at h
  · cases h
  next htail =>
  split at h
  · cases h
  next =>
  rw [Res.ok.injEq, Option.some.injEq] at h
  subst h
  rw [ByteMem.length_read]
  generalize (gm.bytes.u16 (data + (pos &&& size - 1).toNat)).toNat = len at *
  have hmin := minLen_ge (gm.bytes (data + (pos &&& size - 1).toNat + 2))
  have halign : recordAlign = 8 := rfl
  rw [halign] at hbad
  omega

/-- The records of a walk are whole words of eight bytes, inside the published bytes. -/
theorem walk_rules (dbg : Bool) (gm : GuestMem) (size : UInt32) (data fuel : Nat)
    (pos avail : UInt32) :
  (∀ rec ∈ (walk dbg gm size data fuel pos avail).recs, 8 ≤ rec.length ∧ rec.length % 8 = 0) ∧
    Circular.span (walk dbg gm size data fuel pos avail).recs ≤ avail.toNat
  := by
  induction fuel generalizing pos avail with
  | zero => simp [walk]
  | succ fuel ih =>
      rw [walk]
      split
      · simp
      rcases hpeek : peek dbg gm size data pos avail with ⟨io, (_ | rec) | e | _⟩
      · simp
      · have hrules := peek_rules (congrArg Prod.snd hpeek)
        dsimp only
        rcases accepts rec with _ | e | _
        · have hlt := avail.toNat_lt
          have hlen : (UInt32.ofNat rec.length).toNat = rec.length :=
            Word.toNat_ofNat_le hrules.2.2.1 hlt
          have hsub : (avail - UInt32.ofNat rec.length).toNat = avail.toNat - rec.length := by
            rw [UInt32.toNat_sub_of_le _ _ (UInt32.le_iff_toNat_le.mpr (by omega)), hlen]
          obtain ⟨hrecs, hspan⟩ := ih (pos + UInt32.ofNat rec.length)
            (avail - UInt32.ofNat rec.length)
          constructor
          · intro r hr
            rcases List.mem_cons.mp hr with rfl | hr
            · exact ⟨hrules.1, hrules.2.1⟩
            · apply hrecs r hr
          · rw [Circular.span_cons]
            omega
        · simp
        · simp
      · simp
      · simp

/-- Guest memory that agrees from an address on. -/
structure AgreeFrom (a : Nat) (gm gm' : GuestMem) : Prop where
  readErr : gm'.readErr = gm.readErr
  bytes : ∀ i, a ≤ i → gm'.bytes i = gm.bytes i

theorem AgreeFrom.read (h : AgreeFrom data gm gm') {a : Nat} (ha : data ≤ a) (n : Nat) :
  gm'.bytes.read a n = gm.bytes.read a n
  := by
  apply ByteMem.read_congr
  intro i _
  apply h.bytes
  omega

theorem peek_congr (h : AgreeFrom data gm gm') (pos avail : UInt32) :
  peek dbg gm' size data pos avail = peek dbg gm size data pos avail
  := by
  have hread := fun n => h.read (Nat.le_add_right data (pos &&& (size - 1)).toNat) n
  have hkind := h.bytes (data + (pos &&& (size - 1)).toNat + 2) (by omega)
  have hchecked : ∀ len kind tail, peekChecked gm' data (pos &&& (size - 1)).toNat len kind tail avail
      = peekChecked gm data (pos &&& (size - 1)).toNat len kind tail avail := by
    intro len kind tail
    simp only [peekChecked, hread, h.readErr]
  simp only [peek, ByteMem.u16, hread, hkind, hchecked, h.readErr]

/-- A walk depends on the memory from the start of the data area on. -/
theorem walk_congr (h : AgreeFrom data gm gm') (fuel : Nat) (pos avail : UInt32) :
  walk dbg gm' size data fuel pos avail = walk dbg gm size data fuel pos avail
  := by
  induction fuel generalizing pos avail with
  | zero => rfl
  | succ fuel ih => simp only [walk, peek_congr h, ih]

end Walks

/-! ### The drain of one ring -/

/-- The records the drain of a ring accepts. -/
def Channel.drained (ch : Channel) (dbg : Bool) (ring : RingId) : List Bytes :=
  match (ringIndices ch ring).2 with
  | .ok (prod, cons) => (ringWalk dbg ch ring prod cons).recs
  | _ => []

/-- How the drain of a ring ends: the indices are refused, a record is refused, or the
consumer index behind the accepted records cannot be stored. -/
def Channel.drainEnd (ch : Channel) (dbg : Bool) (ring : RingId) : Res WireError Unit :=
  match (ringIndices ch ring).2 with
  | .err e => .err e
  | .panic => .panic
  | .ok (prod, cons) =>
      match (ringWalk dbg ch ring prod cons).stop, ch.gm.writeErr (ch.consGpa ring) 4 with
      | .ok (), some e => if ch.drained dbg ring = [] then .ok () else .err (.mem e)
      | stop, _ => stop

/-- The position behind the accepted records. -/
def Channel.drainPos (ch : Channel) (dbg : Bool) (ring : RingId) : UInt32 :=
  ch.gm.bytes.u32 (ch.consGpa ring) + UInt32.ofNat (Circular.span (ch.drained dbg ring))

section OneRing

variable {dbg : Bool} {ch ch' : Channel} {ring : RingId}

theorem ringIndices_eq_ok {prod cons : UInt32} (h : (ringIndices ch ring).2 = .ok (prod, cons)) :
  prod = ch.gm.bytes.u32 (ch.prodGpa ring) ∧ cons = ch.gm.bytes.u32 (ch.consGpa ring) ∧
    (prod - cons).toNat ≤ (ch.ringDesc ring).size.toNat
  := by
  rw [ringIndices] at h
  split at h
  · cases h
  dsimp only at h
  split at h
  · cases h
  split at h
  · cases h
  next hfull =>
  rw [Res.ok.injEq, Prod.mk.injEq] at h
  obtain ⟨rfl, rfl⟩ := h
  refine ⟨rfl, rfl, ?_⟩
  rw [gt_iff_lt, UInt32.lt_iff_toNat_lt] at hfull
  omega

theorem ringIndices_ne_panic (ch : Channel) (ring : RingId) :
  (ringIndices ch ring).2 ≠ .panic
  := by
  rw [ringIndices]
  split
  · simp
  dsimp only
  split
  · simp
  split
  · simp
  · simp

/-- The consumer index moves exactly when there are records. -/
theorem drainPos_eq_iff :
  ch.drainPos dbg ring = ch.gm.bytes.u32 (ch.consGpa ring) ↔ ch.drained dbg ring = []
  := by
  have hspan : Circular.span (ch.drained dbg ring) < 2 ^ 32 ∧
      ∀ rec ∈ ch.drained dbg ring, 8 ≤ rec.length := by
    rw [Channel.drained]
    split
    · next prod cons _ =>
      have hlt := (prod - cons).toNat_lt
      obtain ⟨hrecs, hle⟩ := walk_rules dbg ch.gm (ch.ringDesc ring).size (ch.dataGpa ring)
        ((prod - cons).toNat / 8 + 1) cons (prod - cons)
      exact ⟨by rw [ringWalk]; omega, fun rec hrec => (hrecs rec hrec).1⟩
    · simp
  rw [Channel.drainPos]
  generalize ch.drained dbg ring = recs at *
  constructor
  · intro heq
    have hzero : UInt32.ofNat (Circular.span recs) = 0 := UInt32.add_eq_left.mp heq
    have hnat := congrArg UInt32.toNat hzero
    rw [UInt32.toNat_ofNat_of_lt' hspan.1, UInt32.toNat_zero] at hnat
    cases recs with
    | nil => rfl
    | cons rec recs =>
        have hlen := hspan.2 rec (by simp)
        rw [Circular.span_cons] at hnat
        omega
  · rintro rfl
    exact UInt32.add_zero _

/-- The outcome of the drain of a ring, from what the ring holds. -/
theorem drainOutcome_parts (dbg : Bool) (ring : RingId) (ch : Channel) :
  (drainOutcome dbg ring ch).res
      = (ch.drainEnd dbg ring >>= fun _ => .ok ((ch.drained dbg ring).filterMap (eventOf ring))) ∧
    (drainOutcome dbg ring ch).ch
      = (match ch.drainEnd dbg ring with
        | .ok () => ((ch.drained dbg ring).foldl Channel.foldRec ch).storeCons ring
            (ch.drainPos dbg ring)
        | _ => (ch.drained dbg ring).foldl Channel.foldRec ch) ∧
    (drainOutcome dbg ring ch).ops
      = (match ch.drainEnd dbg ring with
        | .ok () => if ch.drained dbg ring = [] then [] else [.consBump ring (ch.drainPos dbg ring)]
        | _ => [])
  := by
  have hpos : ch.drainPos dbg ring = ch.gm.bytes.u32 (ch.consGpa ring) ↔ _ := drainPos_eq_iff
  rw [Channel.drainEnd]
  rw [Channel.drainPos] at hpos ⊢
  rcases hidx : ringIndices ch ring with ⟨io, ⟨prod, cons⟩ | e | _⟩
  · obtain ⟨_, rfl, _⟩ := ringIndices_eq_ok (congrArg Prod.snd hidx)
    have hdrained : ch.drained dbg ring
        = (ringWalk dbg ch ring prod (ch.gm.bytes.u32 (ch.consGpa ring))).recs := by
      rw [Channel.drained, hidx]
    have hplace := foldRecs_place (ch.drained dbg ring) ch
    simp only [drainOutcome, hidx, ← hdrained]
    cases (ringWalk dbg ch ring prod (ch.gm.bytes.u32 (ch.consGpa ring))).stop with
    | err e => simp
    | panic => simp
    | ok u =>
        simp only [bump, hplace.gm, hplace.consGpa, hpos]
        by_cases hrecs : ch.drained dbg ring = []
        · cases ch.gm.writeErr (ch.consGpa ring) 4 with
          | some e => simp [hrecs, Channel.storeCons, ByteMem.write_u32_self]
          | none => simp [hrecs, Channel.storeCons, ByteMem.write_u32_self]
        · cases ch.gm.writeErr (ch.consGpa ring) 4 with
          | some e => simp [hrecs]
          | none => simp [hrecs, Channel.storeCons, hplace.gm, hplace.consGpa]
  · simp [drainOutcome, hidx, Channel.drained]
  · simp [drainOutcome, hidx, Channel.drained]

end OneRing

/-! ### The drain of both rings -/

/-- A channel that differs from another in its tables and in one consumer cell. -/
structure Beside (ring : RingId) (ch ch' : Channel) : Prop where
  header : ch'.header = ch.header
  base : ch'.base = ch.base
  readErr : ch'.gm.readErr = ch.gm.readErr
  writeErr : ch'.gm.writeErr = ch.gm.writeErr
  bytes : ∀ i, i < ch.consGpa ring ∨ ch.consGpa ring + 4 ≤ i → ch'.gm.bytes i = ch.gm.bytes i

theorem drainOutcome_beside (dbg : Bool) (ring : RingId) (ch : Channel) :
  Beside ring ch (drainOutcome dbg ring ch).ch
  := by
  have hplace := foldRecs_place (ch.drained dbg ring) ch
  rw [(drainOutcome_parts dbg ring ch).2.1]
  split
  · simp only [Channel.storeCons, hplace.gm, hplace.consGpa]
    refine ⟨hplace.header, hplace.base, rfl, rfl, ?_⟩
    intro i hi
    dsimp only
    rcases hi with hlt | hle
    · rw [ByteMem.write_apply_of_lt _ _ hlt]
    · rw [ByteMem.write_apply_of_le]
      rwa [Bytes.length_ofU32]
  · refine ⟨hplace.header, hplace.base, ?_, ?_, ?_⟩
    · rw [hplace.gm]
    · rw [hplace.gm]
    · intro i _
      rw [hplace.gm]

section Beside

variable {dbg : Bool} {a b : RingId} {ch ch' : Channel}

theorem Beside.places (h : Beside a ch ch') (ring : RingId) :
  ch'.prodGpa ring = ch.prodGpa ring ∧ ch'.consGpa ring = ch.consGpa ring ∧
    ch'.dataGpa ring = ch.dataGpa ring ∧ ch'.ringDesc ring = ch.ringDesc ring
  := by
  refine ⟨?_, ?_, ?_, ?_⟩
  · rw [Channel.prodGpa, h.base, Channel.prodGpa]
  · rw [Channel.consGpa, h.base, Channel.consGpa]
  · rw [Channel.dataGpa, Channel.ringDesc, h.base, h.header, Channel.dataGpa, Channel.ringDesc]
  · rw [Channel.ringDesc, h.header, Channel.ringDesc]

/-- The cells of the other ring are the same. -/
theorem Beside.cells (h : Beside a ch ch') (hab : a ≠ b) :
  ch'.gm.bytes.u32 (ch.prodGpa b) = ch.gm.bytes.u32 (ch.prodGpa b) ∧
    ch'.gm.bytes.u32 (ch.consGpa b) = ch.gm.bytes.u32 (ch.consGpa b)
  := by
  have hoff : ∀ ring : RingId, ring ≠ b →
      (b.prodOffset + 4 ≤ ring.consOffset ∨ ring.consOffset + 4 ≤ b.prodOffset) ∧
      (b.consOffset + 4 ≤ ring.consOffset ∨ ring.consOffset + 4 ≤ b.consOffset) := by
    intro ring
    cases ring <;> cases b <;> decide
  obtain ⟨hprod, hcons⟩ := hoff a hab
  constructor
  · apply ByteMem.u32_congr
    intro i hi
    apply h.bytes
    simp only [Channel.prodGpa, Channel.consGpa]
    omega
  · apply ByteMem.u32_congr
    intro i hi
    apply h.bytes
    simp only [Channel.consGpa]
    omega

theorem Beside.ringIndices (h : Beside a ch ch') (hab : a ≠ b) :
  ringIndices ch' b = Host.ringIndices ch b
  := by
  obtain ⟨hprod, hcons⟩ := h.cells hab
  obtain ⟨hp, hc, _, hdesc⟩ := h.places b
  simp only [Host.ringIndices, hp, hc, hdesc, h.readErr, hprod, hcons]

theorem Beside.ringWalk (h : Beside a ch ch') (hacc : Accepted ch.header) (prod cons : UInt32) :
  ringWalk dbg ch' b prod cons = Host.ringWalk dbg ch b prod cons
  := by
  obtain ⟨_, _, hdata, hdesc⟩ := h.places b
  simp only [Host.ringWalk, hdata, hdesc]
  apply walk_congr
  refine ⟨h.readErr, ?_⟩
  intro i hi
  apply h.bytes
  right
  have hcell := (cell_bounds a).2
  have hge := (hacc.valid b).offset_ge
  simp only [offManifest, offRingCData] at hcell hge
  simp only [Channel.consGpa, Channel.dataGpa, Channel.ringDesc] at hi ⊢
  omega

theorem Beside.drained (h : Beside a ch ch') (hacc : Accepted ch.header) (hab : a ≠ b) :
  ch'.drained dbg b = ch.drained dbg b
  := by
  simp only [Channel.drained, h.ringIndices hab, h.ringWalk hacc]

theorem Beside.drainEnd (h : Beside a ch ch') (hacc : Accepted ch.header) (hab : a ≠ b) :
  ch'.drainEnd dbg b = ch.drainEnd dbg b
  := by
  simp only [Channel.drainEnd, h.ringIndices hab, h.ringWalk hacc, h.drained hacc hab,
    (h.places b).2.1, h.writeErr]

end Beside

/-- The drain of both rings, from the outcomes for each of them. -/
theorem run_drainEvents (dbg : Bool) (h : HostState) {oA oW : Outcome WireError (List GuestEvent)}
    (hA : oA = drainOutcome dbg .A h.ch) (hW : oW = drainOutcome dbg .W oA.ch) :
  (drainEvents dbg).run h
    = match oA.res with
      | .ok evs =>
          ({ ch := oW.ch, sink := h.sink ++ oA.ops ++ oW.ops, io := h.io ++ oA.io ++ oW.io },
            oW.res >>= fun evs' => .ok (evs ++ evs'))
      | .err e => ({ ch := oA.ch, sink := h.sink ++ oA.ops, io := h.io ++ oA.io }, .err e)
      | .panic => ({ ch := oA.ch, sink := h.sink ++ oA.ops, io := h.io ++ oA.io }, .panic)
  := by
  have hrun := run_drainRing dbg .A [] h hA
  rw [drainEvents]
  cases hres : oA.res with
  | ok evs =>
      rw [hres] at hrun
      rw [Exec.run_bind_of_ok hrun]
      exact run_drainRing dbg .W evs _ hW
  | err e =>
      rw [hres] at hrun
      rw [Exec.run_bind_of_err hrun]
  | panic =>
      rw [hres] at hrun
      rw [Exec.run_bind_of_panic hrun]

/-! ### Records that change no table -/

/-- The payload of a record, if it has one for the host. -/
def payloadOf (rec : Bytes) : Option OwnedPayload :=
  match decodeEvent rec with
  | .ok (hdr, payload) => toOwned hdr.flags payload
  | _ => none

/-- A record whose kind the host does not know. -/
def UnknownRecord (rec : Bytes) : Prop := ∃ kind, decodeEvent rec = .err (.unknownKind kind)

/-- The name the last query with a sequence number asks for. -/
def lastQuery (iseq : UInt32) : List Bytes → Option UInt32
  | [] => none
  | rec :: recs =>
      (lastQuery iseq recs).or
        (match payloadOf rec with
        | some (.injectQuery i nameId) => if i = iseq then some nameId else none
        | _ => none)

/-- The tables a drain folds records into are the same. -/
structure SameTables (a b : Channel) : Prop where
  interns : a.interns = b.interns
  pendingInjects : a.pendingInjects = b.pendingInjects
  unknownKindRecords : a.unknownKindRecords = b.unknownKindRecords
  internRedefinitions : a.internRedefinitions = b.internRedefinitions

/-- A record binds no name, or one that the table holds already. -/
def KnownName (interns : BTreeMap InternEntry) (rec : Bytes) : Prop :=
  ∀ id name decl, payloadOf rec = some (.nameIntern id name decl) →
    ∃ e : InternEntry, interns[id]? = some e ∧ e.name = Utf8.fromUtf8Lossy name ∧
      (decl = true → e.reachableDecl = true)

/-- Records that the tables of a channel hold already: no kind is unknown, each name is
bound as it is, and each last query asks for what is pending. -/
structure Known (ch : Channel) (recs : List Bytes) : Prop where
  kinds : ∀ rec ∈ recs, ¬ UnknownRecord rec
  names : ∀ rec ∈ recs, KnownName ch.interns rec
  queries : ∀ iseq nameId, lastQuery iseq recs = some nameId →
    ch.pendingInjects[iseq]? = some nameId

/-- What a record does to a channel: it counts as unknown, or its payload is folded. -/
theorem foldRec_cases (ch : Channel) (rec : Bytes) :
  (UnknownRecord rec ∧ payloadOf rec = none ∧
      ch.foldRec rec = { ch with unknownKindRecords := ch.unknownKindRecords + 1 }) ∨
    ¬ UnknownRecord rec ∧
      ch.foldRec rec = (match payloadOf rec with
        | some owned => ch.foldPayload owned
        | none => ch)
  := by
  simp only [UnknownRecord, payloadOf, Channel.foldRec]
  rcases decodeEvent rec with ⟨hdr, payload⟩ | e | _
  · right
    refine ⟨by simp, ?_⟩
    dsimp only
    cases toOwned hdr.flags payload with
    | none => rfl
    | some owned => rfl
  · cases e with
    | unknownKind kind => exact Or.inl ⟨⟨kind, rfl⟩, rfl, rfl⟩
    | _ => exact Or.inr ⟨by simp, rfl⟩
  · exact Or.inr ⟨by simp, rfl⟩

/-- Each record counts at most once as unknown. -/
theorem unknownKindRecords_foldRec (ch : Channel) (rec : Bytes) :
  ch.unknownKindRecords ≤ (ch.foldRec rec).unknownKindRecords ∧
    ((ch.foldRec rec).unknownKindRecords = ch.unknownKindRecords ↔ ¬ UnknownRecord rec)
  := by
  rcases foldRec_cases ch rec with ⟨hunknown, _, hfold⟩ | ⟨hknown, hfold⟩
  · rw [hfold]
    simp [hunknown]
  · have hsame : (ch.foldRec rec).unknownKindRecords = ch.unknownKindRecords := by
      rw [hfold]
      split
      · next owned _ =>
        cases owned with
        | nameIntern id name decl =>
            simp only [Channel.foldPayload]
            split <;> rfl
        | _ => rfl
      · rfl
    simp [hsame, hknown]

theorem pendingInjects_foldRec (ch : Channel) (rec : Bytes) (iseq : UInt32) :
  (ch.foldRec rec).pendingInjects[iseq]? = (lastQuery iseq [rec]).or ch.pendingInjects[iseq]?
  := by
  rcases foldRec_cases ch rec with ⟨_, hnone, hfold⟩ | ⟨_, hfold⟩
  · rw [hfold, lastQuery, hnone]
    rfl
  · rw [hfold, lastQuery, lastQuery]
    cases payloadOf rec with
    | none => rfl
    | some owned =>
        cases owned with
        | injectQuery i nameId =>
            simp only [Channel.foldPayload, Std.ExtTreeMap.getElem?_insert]
            by_cases heq : i = iseq
            · simp [heq]
            · simp [heq]
        | nameIntern id name decl =>
            simp only [Channel.foldPayload]
            split <;> rfl
        | _ => rfl

/-- The pending queries after folding records. -/
theorem pendingInjects_foldl (recs : List Bytes) (ch : Channel) (iseq : UInt32) :
  (recs.foldl Channel.foldRec ch).pendingInjects[iseq]?
    = (lastQuery iseq recs).or ch.pendingInjects[iseq]?
  := by
  induction recs generalizing ch with
  | nil => rfl
  | cons rec recs ih =>
      simp only [List.foldl_cons, ih, pendingInjects_foldRec, lastQuery, Option.none_or,
        Option.or_assoc]

/-- What one name table knows, the other knows too. -/
structure NamesLe (a b : Channel) : Prop where
  interns : ∀ (id : UInt32) (e : InternEntry), a.interns[id]? = some e →
    ∃ e' : InternEntry, b.interns[id]? = some e' ∧ e'.name = e.name ∧
      (e.reachableDecl = true → e'.reachableDecl = true)
  internRedefinitions : a.internRedefinitions ≤ b.internRedefinitions

theorem NamesLe.refl (ch : Channel) :
  NamesLe ch ch
  := ⟨fun _ e he => ⟨e, he, rfl, id⟩, Nat.le_refl _⟩

theorem NamesLe.trans {a b c : Channel} (hab : NamesLe a b) (hbc : NamesLe b c) :
  NamesLe a c
  := by
  refine ⟨?_, Nat.le_trans hab.internRedefinitions hbc.internRedefinitions⟩
  intro id e he
  obtain ⟨e', he', hname', hdecl'⟩ := hab.interns id e he
  obtain ⟨e'', he'', hname'', hdecl''⟩ := hbc.interns id e' he'
  exact ⟨e'', he'', hname''.trans hname', fun h => hdecl'' (hdecl' h)⟩

theorem NamesLe.antisymm {a b : Channel} (hab : NamesLe a b) (hba : NamesLe b a) :
  a.interns = b.interns ∧ a.internRedefinitions = b.internRedefinitions
  := by
  refine ⟨?_, Nat.le_antisymm hab.internRedefinitions hba.internRedefinitions⟩
  apply Std.ExtTreeMap.ext_getElem?
  intro id
  cases ha : a.interns[id]? with
  | some e =>
      obtain ⟨e', he', hname', hdecl'⟩ := hab.interns id e ha
      obtain ⟨e'', he'', hname'', hdecl''⟩ := hba.interns id e' he'
      rw [ha, Option.some.injEq] at he''
      subst he''
      have hdecl : e.reachableDecl = e'.reachableDecl := Bool.eq_iff_iff.mpr ⟨hdecl', hdecl''⟩
      rw [he', Option.some.injEq]
      cases e
      cases e'
      simp_all
  | none =>
      cases hb : b.interns[id]? with
      | none => rfl
      | some e =>
          obtain ⟨e', he', _⟩ := hba.interns id e hb
          rw [ha] at he'
          cases he'

/-- Folding a record loses no name, and changes none exactly when the record is known. -/
theorem names_foldRec (ch : Channel) (rec : Bytes) :
  NamesLe ch (ch.foldRec rec) ∧
    ((ch.foldRec rec).interns = ch.interns ∧
        (ch.foldRec rec).internRedefinitions = ch.internRedefinitions
      ↔ KnownName ch.interns rec)
  := by
  have hother : (∀ id name decl, payloadOf rec ≠ some (.nameIntern id name decl)) →
      (ch.foldRec rec).interns = ch.interns ∧
        (ch.foldRec rec).internRedefinitions = ch.internRedefinitions := by
    intro hne
    rcases foldRec_cases ch rec with ⟨_, _, hfold⟩ | ⟨_, hfold⟩
    · rw [hfold]
      trivial
    · rw [hfold]
      rcases hpay : payloadOf rec with _ | owned
      · trivial
      · cases owned with
        | nameIntern id name decl => exact absurd hpay (hne id name decl)
        | _ => trivial
  by_cases hintern : ∃ id name decl, payloadOf rec = some (.nameIntern id name decl)
  · obtain ⟨id, name, decl, hpay⟩ := hintern
    have hfold : ch.foldRec rec = ch.foldPayload (.nameIntern id name decl) := by
      rcases foldRec_cases ch rec with ⟨_, hnone, _⟩ | ⟨_, hfold⟩
      · rw [hpay] at hnone
        cases hnone
      · rw [hfold, hpay]
    have hknown : KnownName ch.interns rec ↔ ∃ e : InternEntry, ch.interns[id]? = some e ∧
        e.name = Utf8.fromUtf8Lossy name ∧ (decl = true → e.reachableDecl = true) := by
      constructor
      · intro h
        apply h id name decl hpay
      · intro h id' name' decl' hpay'
        rw [hpay] at hpay'
        cases hpay'
        exact h
    rw [hfold, hknown, Channel.foldPayload]
    cases hid : ch.interns[id]? with
    | none =>
        refine ⟨⟨?_, Nat.le_refl _⟩, ?_⟩
        · intro id' e he
          have hne : ¬ id = id' := by
            rintro rfl
            rw [hid] at he
            cases he
          refine ⟨e, ?_, rfl, fun h => h⟩
          simpa [Std.ExtTreeMap.getElem?_insert, hne] using he
        · constructor
          · rintro ⟨hsame, _⟩
            have hget := congrArg (fun t : BTreeMap InternEntry => t[id]?) hsame
            simp [hid] at hget
          · rintro ⟨e, he, _⟩
            cases he
    | some e =>
        refine ⟨⟨?_, by simp⟩, ?_⟩
        · intro id' e' he'
          by_cases heq : id = id'
          · subst heq
            rw [hid, Option.some.injEq] at he'
            subst he'
            refine ⟨{ e with reachableDecl := e.reachableDecl || decl }, by simp, rfl, ?_⟩
            intro hdecl
            simp [hdecl]
          · refine ⟨e', ?_, rfl, fun h => h⟩
            simpa [Std.ExtTreeMap.getElem?_insert, heq] using he'
        · constructor
          · rintro ⟨hsame, hredef⟩
            have hget := congrArg (fun t : BTreeMap InternEntry => t[id]?) hsame
            refine ⟨e, rfl, ?_, ?_⟩
            · by_contra hname
              simp [hname] at hredef
            · intro hdecl
              simpa [hid, hdecl] using congrArg (Option.map InternEntry.reachableDecl) hget
          · rintro ⟨e', he', hname, hdecl⟩
            cases he'
            have hentry : { e with reachableDecl := e.reachableDecl || decl } = e := by
              cases hd : decl with
              | false => simp
              | true => simp [← hdecl hd]
            refine ⟨?_, by simp [hname]⟩
            apply Std.ExtTreeMap.ext_getElem?
            intro id'
            dsimp only
            rw [hentry, Std.ExtTreeMap.getElem?_insert]
            split
            · next heq =>
              rw [← hid, Std.LawfulEqCmp.eq_of_compare heq]
            · rfl
  · obtain ⟨hinterns, hredef⟩ := hother (by simpa using hintern)
    refine ⟨⟨?_, ?_⟩, ?_⟩
    · rw [hinterns]
      exact (NamesLe.refl ch).interns
    · rw [hredef]
    · refine ⟨fun _ id name decl hpay => absurd ⟨id, name, decl, hpay⟩ hintern, fun _ => ?_⟩
      exact ⟨hinterns, hredef⟩

/-- Folding records loses no name. -/
theorem namesLe_foldl (recs : List Bytes) (ch : Channel) :
  NamesLe ch (recs.foldl Channel.foldRec ch)
  := by
  induction recs generalizing ch with
  | nil => apply NamesLe.refl
  | cons rec recs ih => exact (names_foldRec ch rec).1.trans (ih _)

/-- Folding records changes no name exactly when each of them is known. -/
theorem names_foldl_iff (recs : List Bytes) (ch : Channel) :
  ((recs.foldl Channel.foldRec ch).interns = ch.interns ∧
      (recs.foldl Channel.foldRec ch).internRedefinitions = ch.internRedefinitions)
    ↔ ∀ rec ∈ recs, KnownName ch.interns rec
  := by
  induction recs generalizing ch with
  | nil => simp
  | cons rec recs ih =>
      obtain ⟨hle, hknown⟩ := names_foldRec ch rec
      rw [List.foldl_cons, List.forall_mem_cons, ← hknown]
      constructor
      · rintro ⟨hinterns, hredef⟩
        -- the table only grows, so it was the same all along
        have hback : NamesLe (ch.foldRec rec) ch := by
          have hrest := namesLe_foldl recs (ch.foldRec rec)
          refine ⟨?_, ?_⟩
          · rw [← hinterns]
            exact hrest.interns
          · rw [← hredef]
            exact hrest.internRedefinitions
        obtain ⟨hmid, hmid'⟩ := hle.antisymm hback
        refine ⟨⟨hmid.symm, hmid'.symm⟩, ?_⟩
        rw [hmid, ← ih, hinterns, hredef]
        exact ⟨hmid, hmid'⟩
      · rintro ⟨⟨hmid, hmid'⟩, hrecs⟩
        rw [← hmid, ← hmid']
        apply (ih _).mpr
        rw [hmid]
        exact hrecs

theorem unknownKindRecords_foldl (recs : List Bytes) (ch : Channel) :
  ch.unknownKindRecords ≤ (recs.foldl Channel.foldRec ch).unknownKindRecords ∧
    ((recs.foldl Channel.foldRec ch).unknownKindRecords = ch.unknownKindRecords
      ↔ ∀ rec ∈ recs, ¬ UnknownRecord rec)
  := by
  induction recs generalizing ch with
  | nil => simp
  | cons rec recs ih =>
      obtain ⟨hle, hiff⟩ := unknownKindRecords_foldRec ch rec
      obtain ⟨hle', hiff'⟩ := ih (ch.foldRec rec)
      rw [List.foldl_cons, List.forall_mem_cons, ← hiff, ← hiff']
      omega

/-- Folding records leaves the tables alone exactly when the tables hold them already. -/
theorem sameTables_foldl_iff (recs : List Bytes) (ch : Channel) :
  SameTables (recs.foldl Channel.foldRec ch) ch ↔ Known ch recs
  := by
  have hpending : (recs.foldl Channel.foldRec ch).pendingInjects = ch.pendingInjects ↔
      ∀ iseq nameId, lastQuery iseq recs = some nameId →
        ch.pendingInjects[iseq]? = some nameId := by
    constructor
    · intro hsame iseq nameId hlast
      rw [← hsame, pendingInjects_foldl, hlast]
      rfl
    · intro h
      apply Std.ExtTreeMap.ext_getElem?
      intro iseq
      rw [pendingInjects_foldl]
      cases hlast : lastQuery iseq recs with
      | none => rfl
      | some nameId => rw [h iseq nameId hlast, Option.some_or]
  constructor
  · intro h
    exact ⟨(unknownKindRecords_foldl recs ch).2.mp h.unknownKindRecords,
      (names_foldl_iff recs ch).mp ⟨h.interns, h.internRedefinitions⟩,
      hpending.mp h.pendingInjects⟩
  · intro h
    obtain ⟨hinterns, hredef⟩ := (names_foldl_iff recs ch).mpr h.names
    exact ⟨hinterns, hpending.mpr h.queries, (unknownKindRecords_foldl recs ch).2.mpr h.kinds,
      hredef⟩

/-! ### When a failed drain leaves no trace -/

/-- Nothing that a drain works on has changed. -/
structure Untouched (h h' : HostState) : Prop where
  consA : h'.ch.gm.bytes.u32 (h.ch.consGpa .A) = h.ch.gm.bytes.u32 (h.ch.consGpa .A)
  consW : h'.ch.gm.bytes.u32 (h.ch.consGpa .W) = h.ch.gm.bytes.u32 (h.ch.consGpa .W)
  sink : h'.sink = h.sink
  tables : SameTables h'.ch h.ch

/-- If the drain fails, it leaves no trace. -/
def AtomicDrain (dbg : Bool) (h : HostState) : Prop :=
  ∀ h' e, (drainEvents dbg).run h = (h', .err e) → Untouched h h'

/-- The condition on a channel: if ring A is faulty, its accepted records are known; if only
ring W is, then ring A has no record and the accepted ones of ring W are known. -/
def LeavesNoTrace (dbg : Bool) (ch : Channel) : Prop :=
  ((∃ e, ch.drainEnd dbg .A = .err e) → Known ch (ch.drained dbg .A)) ∧
    (ch.drainEnd dbg .A = .ok () → (∃ e, ch.drainEnd dbg .W = .err e) →
      ch.drained dbg .A = [] ∧ Known ch (ch.drained dbg .W))

/-- A drain that fails after folding records and reporting nothing. -/
theorem atomicDrain_of_err {dbg : Bool} {h h' : HostState} {e : WireError} {recs : List Bytes}
    (hrun : (drainEvents dbg).run h = (h', .err e))
    (hch : h'.ch = recs.foldl Channel.foldRec h.ch) (hsink : h'.sink = h.sink) :
  AtomicDrain dbg h ↔ Known h.ch recs
  := by
  have hplace := foldRecs_place recs h.ch
  rw [← sameTables_foldl_iff, ← hch]
  constructor
  · intro hatomic
    exact (hatomic h' e hrun).tables
  · intro htables h'' e' hrun'
    rw [hrun, Prod.mk.injEq] at hrun'
    obtain ⟨rfl, _⟩ := hrun'
    refine ⟨?_, ?_, hsink, htables⟩
    · rw [hch, hplace.gm]
    · rw [hch, hplace.gm]

/-- A drain that does not fail. -/
theorem atomicDrain_of_not_err {dbg : Bool} {h : HostState}
    (hres : ∀ e, ((drainEvents dbg).run h).2 ≠ .err e) :
  AtomicDrain dbg h
  := by
  intro h' e hrun
  apply absurd _ (hres e)
  rw [hrun]

/-- **Failed drains.**  A failed drain leaves no trace exactly when the records in front of
the fault change no table and, if the fault is on ring W, ring A has no record. -/
theorem atomicDrain_iff (dbg : Bool) (h : HostState) (hacc : Accepted h.ch.header) :
  AtomicDrain dbg h ↔ LeavesNoTrace dbg h.ch
  := by
  obtain ⟨hres, hch, hops⟩ := drainOutcome_parts dbg .A h.ch
  have hbeside := drainOutcome_beside dbg .A h.ch
  have hrun := run_drainEvents dbg h rfl rfl
  rw [LeavesNoTrace]
  cases hend : h.ch.drainEnd dbg .A with
  | err e =>
      rw [hend] at hres hch hops
      simp only [hres, Res.err_bind] at hrun
      rw [atomicDrain_of_err hrun hch (by simp [hops])]
      simp
  | panic =>
      rw [hend] at hres
      simp only [hres, Res.panic_bind] at hrun
      have hatomic : AtomicDrain dbg h := atomicDrain_of_not_err (by simp [hrun])
      simp [hatomic]
  | ok u =>
      rw [hend] at hres hch hops
      obtain ⟨hresW, hchW, hopsW⟩ := drainOutcome_parts dbg .W (drainOutcome dbg .A h.ch).ch
      have hdrained : (drainOutcome dbg .A h.ch).ch.drained dbg .W = h.ch.drained dbg .W :=
        hbeside.drained hacc (by decide)
      have hendW : (drainOutcome dbg .A h.ch).ch.drainEnd dbg .W = h.ch.drainEnd dbg .W :=
        hbeside.drainEnd hacc (by decide)
      rw [hendW] at hresW hchW hopsW
      rw [hdrained] at hresW hchW hopsW
      simp only [hres, Res.ok_bind] at hrun
      cases hW : h.ch.drainEnd dbg .W with
      | err e =>
          rw [hW] at hresW hchW hopsW
          simp only [hresW, Res.err_bind] at hrun
          by_cases hrecs : h.ch.drained dbg .A = []
          · -- ring A is empty: only the records of ring W are folded
            have hsame : (drainOutcome dbg .A h.ch).ch = h.ch := by
              rw [hch]
              simp [hrecs, drainPos_eq_iff.mpr hrecs, Channel.storeCons, ByteMem.write_u32_self]
            rw [hsame] at hchW hopsW hrun
            rw [atomicDrain_of_err hrun hchW (by simp [hops, hopsW, hrecs])]
            simp [hrecs]
          · -- the move of ring A's consumer index was already reported
            have hfails : ¬ AtomicDrain dbg h := by
              intro hatomic
              have hsink := (hatomic _ e hrun).sink
              simp [hops, hopsW, hrecs] at hsink
            simp [hrecs, hfails]
      | ok u =>
          rw [hW] at hresW
          have hatomic : AtomicDrain dbg h := atomicDrain_of_not_err (by simp [hrun, hresW])
          simp [hatomic]
      | panic =>
          rw [hW] at hresW
          have hatomic : AtomicDrain dbg h := atomicDrain_of_not_err (by simp [hrun, hresW])
          simp [hatomic]

/-- A record on ring A, and eight published bytes on ring W that are no record. -/
def spoiled : HostState :=
  { ch := canonicalChannel.withMem
      (((canonicalMem.bytes.write 0x10000 (eventBytes 0 0 0 (.frameMark 5))).write
        (RingId.A.prodOffset) (Bytes.ofU32 24)).write (RingId.W.prodOffset) (Bytes.ofU32 8))
    sink := []
    io := [] }

/-- The drain consumes the record on ring A, reports that, and then fails on ring W. -/
theorem not_atomicDrain_spoiled :
  ¬ AtomicDrain true spoiled
  := by
  intro hatomic
  have hres : ((drainEvents true).run spoiled).2 = .err (.decode .badLen) := by
    decide +kernel
  have hsink : ((drainEvents true).run spoiled).1.sink = [.consBump .A 24] := by
    decide +kernel
  rcases hrun : (drainEvents true).run spoiled with ⟨h', res⟩
  rw [hrun] at hres hsink
  dsimp only at hres hsink
  subst hres
  have hsame := (hatomic _ _ hrun).sink
  rw [hsink] at hsame
  cases hsame

/-- Two records: the name `a` is bound to the id 1, and asked for under the number 7. -/
def knownRecs : List Bytes :=
  [eventBytes 0 0 0 (.nameIntern 1 [0x61]), eventBytes 1 0 0 (.injectQuery 7 1)]

/-- A channel that holds the name and the query already, with the two records on ring W and behind
them eight published bytes that are no record. -/
def knownFault : HostState :=
  { ch := { canonicalChannel.withMem ((canonicalMem.bytes.write 0x20000 knownRecs.flatten).write
        RingId.W.prodOffset (Bytes.ofU32 (.ofNat (knownRecs.flatten.length + 8)))) with
      interns := (∅ : BTreeMap InternEntry).insert 1 ⟨[0x61], false⟩
      pendingInjects := (∅ : BTreeMap UInt32).insert 7 1 }
    sink := []
    io := [] }

theorem drained_knownFault :
  knownFault.ch.drained true .A = [] ∧ knownFault.ch.drained true .W = knownRecs
  := by
  decide +kernel

theorem payloads_knownRecs :
  knownRecs.map payloadOf = [some (.nameIntern 1 [0x61] false), some (.injectQuery 7 1)]
  := by
  decide +kernel

theorem known_knownFault :
  Known knownFault.ch knownRecs
  := by
  obtain ⟨hname, hquery⟩ := List.cons_eq_cons.mp payloads_knownRecs
  have hquery := (List.cons_eq_cons.mp hquery).1
  refine ⟨?_, ?_, ?_⟩
  · rintro rec hrec ⟨kind, hkind⟩
    have hnone : payloadOf rec = none := by rw [payloadOf, hkind]
    obtain rfl | hrec := List.mem_cons.mp hrec
    · rw [hname] at hnone
      cases hnone
    · rw [List.mem_singleton.mp hrec, hquery] at hnone
      cases hnone
  · intro rec hrec id name decl hbinds
    obtain rfl | hrec := List.mem_cons.mp hrec
    · rw [hname] at hbinds
      cases hbinds
      exact ⟨_, Std.ExtTreeMap.getElem?_insert_self, by decide +kernel, fun h => nomatch h⟩
    · rw [List.mem_singleton.mp hrec, hquery] at hbinds
      cases hbinds
  · intro iseq nameId hlast
    rw [knownRecs, lastQuery, lastQuery, lastQuery, hname, hquery] at hlast
    obtain rfl | hne := eq_or_ne iseq 7
    · obtain rfl : 1 = nameId := Option.some.inj hlast
      exact Std.ExtTreeMap.getElem?_insert_self
    · simp [hne.symm] at hlast

/-- The drain fails behind the two records, and leaves no trace. -/
theorem atomicDrain_knownFault :
  ((drainEvents true).run knownFault).2 = .err (.decode .badLen) ∧ AtomicDrain true knownFault
  := by
  have hacc : Accepted knownFault.ch.header := accepted_canonical
  have hendA : knownFault.ch.drainEnd true .A = .ok () := by decide +kernel
  refine ⟨by decide +kernel, (atomicDrain_iff true knownFault hacc).mpr ⟨?_, ?_⟩⟩
  · rw [hendA]
    rintro ⟨e, he⟩
    cases he
  · intro _ _
    rw [drained_knownFault.1, drained_knownFault.2]
    exact ⟨rfl, known_knownFault⟩

end Host
