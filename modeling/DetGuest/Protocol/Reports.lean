import DetGuest.Protocol.Points
import DetGuest.Sdk.Suppression

/-!
# Reports of points

What the host gets to see of the points of a workload: the stats region, and the events that are
published on ring W and drained from it.
-/

namespace Protocol

open Wire Host Sdk

variable {π τ : Type}

/-! ### A world to start from -/

/-- A setting over the canonical channel, with a plan that never injects a fault. -/
def sampleSetting : Setting Unit Unit :=
  { dbg := true
    ch := canonicalChannel
    plan := { decide := fun p _ _ _ => (p, .proceed) }
    translator := fun _ _ _ _ => ((), .ok [])
    pid := 1
    workloadPid := none }

/-- A world in which nothing has happened. -/
def sampleWorld : World Unit Unit :=
  { events := ⟨⟨canonicalChannel, [], []⟩, fun _ => 0⟩
    plan := ()
    latch := 0
    agent :=
      { records := []
        translator := ()
        manifest := ⟨fun _ => 0, 0, []⟩
        vnanos := 0
        emitted := [] }
    sdk := .new
    vnanos := 0
    pauses := []
    bells := []
    caller := none
    landed := []
    drained := [] }

theorem holds_sampleWorld :
  Holds sampleSetting.ch sampleWorld.events .empty
  := by
  apply holds_empty
  · exact mapped_canonical
  · exact canonicalChannel_empty
  · exact canonicalChannel_aligned

/-! ### The stats region -/

/-- **The stats region mirrors the SDK.**  Behind every run of points, whatever the host and the
detcalls do, the stats region has the totals and the beacon counters of the SDK, counts the distinct
names that were hit, and lists the first of the names that were hit and of those that were asserted,
with their counters in the intern table. -/
theorem statsRegion_mirrors {S : Setting π τ} (hch : Canonical S.ch) {w : World π τ} {c : Contents}
    (h : Holds S.ch w.events c) (hnew : w.sdk = .new) (ops : List PointOp) :
  Mirrors (pointsIn ops) (S.pass w ops).sdk
  := by
  rw [sdk_pass hch h ops, hnew]
  exact (mirrored_new.points tracks_new (pointsIn ops)).mirrors (tracks_new.points (pointsIn ops)).1

/-- A name that is too long for the intern table. -/
def longName : Bytes := List.replicate 257 97

/-- A name that is too long was hit, but it is not counted. -/
theorem longName_not_counted :
  (sampleSetting.pass sampleWorld [.point (.expectReachable longName) [] []]).sdk.statsRegion.reachableNames
      = 0 ∧
    ([Point.expectReachable longName].filterMap Point.hit).eraseDups.length = 1
  := by
  constructor
  · rw [sdk_pass canonical_canonicalChannel holds_sampleWorld]
    decide +kernel
  · decide +kernel

/-- Names that are hit and asserted in turn, while detcalls fail. -/
theorem statsRegion_mirrors_sample :
  let ops : List PointOp := [
    .point (.expectReachable [97]) [] [⟨false, false⟩],
    .point (.assertAlways false [98] [1]) [] [],
    .drain,
    .point (.assertAlways true [97] []) [] []]
  Mirrors (pointsIn ops) (sampleSetting.pass sampleWorld ops).sdk
  := statsRegion_mirrors canonical_canonicalChannel holds_sampleWorld rfl _

/-! ### Published and drained events -/

/-- The records that were published on a ring. -/
def World.landedOn (w : World π τ) (g : GuestRing) : List Bytes :=
  (w.landed.filter fun l => l.ring = g).map Landed.bytes

/-- The events that were published on a ring. -/
def World.published (w : World π τ) (g : GuestRing) : List GuestEvent :=
  (w.landedOn g).filterMap (eventOf g.id)

/-- The events of a ring that a drain has returned. -/
def Drained.from (d : Drained) (g : GuestRing) : List GuestEvent :=
  match d.res with
  | .ok evs => evs.filter fun ev => ev.ring = g.id
  | _ => []

/-- The events of a ring that were drained. -/
def World.received (w : World π τ) (g : GuestRing) : List GuestEvent :=
  w.drained.flatMap fun d => d.from g

/-- What an event tells, and whether it is marked as truncated. -/
def shown (ev : GuestEvent) : OwnedPayload × Bool := (ev.payload, ev.truncated)

/-- What an event that is handed to ring W tells the host. -/
def tells (e : Emission) : Option (OwnedPayload × Bool) :=
  (toOwned (eventFlags e.extraFlags e.ev) e.ev.clip).map fun owned =>
    (owned, eventFlags e.extraFlags e.ev &&& flagTruncated != 0)

/-- Of the events that are handed to ring W the critical ones are published. -/
def Kept (es L : List Emission) : Prop :=
  L.Sublist es ∧ (L.filter fun e => e.cls = .critical) = es.filter fun e => e.cls = .critical

theorem Kept.append {es L es' L' : List Emission} (h : Kept es L) (h' : Kept es' L') :
  Kept (es ++ es') (L ++ L')
  := by
  refine ⟨h.1.append h'.1, ?_⟩
  rw [List.filter_append, List.filter_append, h.2, h'.2]

theorem Kept.mem_of_critical {es L : List Emission} (h : Kept es L) {e : Emission} (he : e ∈ es)
    (hcls : e.cls = .critical) :
  e ∈ L
  := by
  have hfilter : e ∈ es.filter fun e => e.cls = .critical :=
    List.mem_filter.mpr ⟨he, decide_eq_true hcls⟩
  rw [← h.2] at hfilter
  exact (List.mem_filter.mp hfilter).1

/-- The state of the SDK is `s`; the events `L` were published on ring W, and those that the host has
not drained yet lie in it.  All detcalls succeed. -/
structure Reported (S : Setting π τ) (s : SdkState) (L : List Emission) (w : World π τ)
    (c : Contents) : Prop where
  holds : Holds S.ch w.events c
  sdk : w.sdk = s
  bells : ∀ b ∈ w.bells, b.answers = true
  published : (w.published .W).map shown = L.filterMap tells
  received : w.received .W ++ (c.events .W).filterMap (eventOf .W) = w.published .W

section Reports

variable {S : Setting π τ} {s : SdkState} {L : List Emission} {w : World π τ} {c : Contents}
  {e : Emission}

theorem stable_reported (S : Setting π τ) (s : SdkState) (L : List Emission) :
  Stable S (Reported S s L)
  := by
  constructor
  · exact fun h => h.holds
  · intro w c c' m vnanos agentVnanos pauses bells h hholds hevents hbells
    refine ⟨hholds, h.sdk, ?_, h.published, ?_⟩
    · exact fun b hb => h.bells b (hbells.subset hb)
    · rw [hevents]
      exact h.received
  · intro w c h' h hholds _
    refine ⟨hholds, h.sdk, h.bells, h.published, ?_⟩
    have hfrom : Drained.from { res := .ok c.drainedEvents, ch := h'.ch } .W
        = (c.events .W).filterMap (eventOf .W) := filter_ring (g := .W)
    have hreceived : (w.drainedBy c h').received .W
        = w.received .W ++ (c.events .W).filterMap (eventOf .W) := by
      rw [World.received, World.drainedBy, List.flatMap_append, List.flatMap_singleton, hfrom]
      rfl
    rw [hreceived, h.received]
    exact List.append_nil _

/-- What the records of an event tell. -/
theorem tells_eventRecs {new : List Bytes} {vnanos : UInt64} (h : Holds S.ch w.events c)
    (hev : e.ev.Encodable)
    (hnew : new = eventRecs (ringOf S.ch .W) (w.events.mem.u32 (ringOf S.ch .W).prod)
      (w.events.nextSeq .W) vnanos e.extraFlags e.ev) :
  (new.filterMap (eventOf .W)).map shown = (tells e).toList
  := by
  obtain ⟨hmod, hmin⟩ := (ringOf S.ch .W).tail_rules (h.events .W).prod_aligned
  obtain ⟨_, _, hsent⟩ := pushRecs_events S.dbg .W hev hmod hmin hnew
  change (new.filterMap (eventOf GuestRing.W.id)).map shown = _
  rw [← hsent, sentEvent, tells]
  cases toOwned (eventFlags e.extraFlags e.ev) e.ev.clip with
  | none => rfl
  | some owned => rfl

theorem publishes_reported (hev : e.ev.Encodable) :
  Publishes S (Reported S s L) (Reported S s (L ++ [e])) e.extraFlags e.ev
  := by
  intro w c p vnanos new h hnew hholds
  have hlanded : (w.publish .W p new).landedOn .W = w.landedOn .W ++ new := by
    rw [World.landedOn, World.publish, List.filter_append, List.map_append, World.landedOn]
    congr 1
    rw [List.filter_eq_self.mpr (by simp), List.map_map]
    exact List.map_id _
  have hpublished : (w.publish .W p new).published .W
      = w.published .W ++ new.filterMap (eventOf .W) := by
    rw [World.published, hlanded, List.filterMap_append]
    rfl
  refine ⟨hholds, h.sdk, h.bells, ?_, ?_⟩
  · rw [hpublished, List.map_append, h.published, tells_eventRecs h.holds hev hnew,
      List.filterMap_append]
    cases htells : tells e with
    | none => simp [htells]
    | some told => simp [htells]
  · rw [hpublished, Contents.push_self, List.filterMap_append, ← List.append_assoc, ← h.received]
    rfl

/-- The critical events of the calls of the SDK are published as long as all detcalls succeed. -/
theorem follows_reported (hch : Canonical S.ch) :
  Follows S (Reported S) Kept (fun bells => ∀ b ∈ bells, b.answers = true)
  := by
  constructor
  · exact stable_reported S
  · exact fun h => h.sdk
  · exact fun s' h => ⟨h.holds, rfl, h.bells, h.published, h.received⟩
  · exact fun _ _ _ hbells h => ⟨h.holds, h.sdk, hbells, h.published, h.received⟩
  · exact fun _ _ _ h hholds => ⟨hholds, h.sdk, h.bells, h.published, h.received⟩
  · exact fun _ h => ⟨h.holds, h.sdk, h.bells, h.published, h.received⟩
  · intro s L w c e h hev
    cases hcls : e.cls with
    | critical =>
        obtain ⟨w', hrun, h'⟩ := run_emitWEvent_inTime (stable_reported S s L) hch hev hcls
          (publishes_reported hev) h (Or.inr (Or.inr (answered_of_all h.bells)))
        refine ⟨[e], ⟨List.Sublist.refl _, rfl⟩, ?_⟩
        rw [hrun]
        exact h'
    | droppable =>
        have hemit := triple_emitWEvent (stable_reported S s L) hch hev (publishes_reported hev)
        have hend : Exec.Triple (Holding (Reported S s L)) (S.platform.emitWEvent e)
            (fun _ w => Holding (Reported S s (L ++ [e])) w ∨ Holding (Reported S s L) w)
            (fun w => Holding (Reported S s (L ++ [e])) w ∨ Holding (Reported S s L) w) :=
          hemit.conseq (fun _ h => h) (fun _ _ h => h.imp_right And.right) (fun _ h => Or.inr h)
        rcases hend.always ⟨c, h⟩ with h' | h'
        · exact ⟨[e], ⟨List.Sublist.refl _, rfl⟩, h'⟩
        · refine ⟨[], ⟨List.nil_sublist _, ?_⟩, ?_⟩
          · simp [hcls]
          · rw [List.append_nil]
            exact h'
  · exact fun e h hev => run_emitWEvent_total (stable_reported S _ _) hch hev h
  · exact ⟨List.Sublist.refl _, rfl⟩
  · exact Kept.append

/-- A world in which the SDK has done nothing so far. -/
structure Untouched (S : Setting π τ) (w : World π τ) : Prop where
  holds : ∃ c, Holds S.ch w.events c ∧ c.events .W = []
  sdk : w.sdk = .new
  landed : w.landed = []
  drained : w.drained = []
  bells : w.bells = []

/-- What was published behind a run of points. -/
theorem reported_pass (hch : Canonical S.ch) (h : Untouched S w) {ops : List PointOp}
    (hbells : ∀ op ∈ ops, ∀ b ∈ op.bells, b.answers = true) :
  ∃ L, Kept (SdkState.new.points (pointsIn ops)).2 L ∧
    Holding (Reported S (SdkState.new.points (pointsIn ops)).1 L) (S.pass w ops)
  := by
  obtain ⟨c, hholds, hempty⟩ := h.holds
  have hstart : Holding (Reported S .new []) w := by
    refine ⟨c, hholds, h.sdk, ?_, ?_, ?_⟩
    · rw [h.bells]
      intro b hb
      cases hb
    · rw [World.published, World.landedOn, h.landed]
      rfl
    · rw [World.received, World.published, World.landedOn, h.landed, h.drained, hempty]
      rfl
  exact (follows_reported hch).pass hch hbells hstart

/-- What the SDK hands to ring W in a run of points from its start. -/
theorem suppression_new (ps : List Point) :
  Suppression ps (SdkState.new.points ps).2
  := by
  have h := suppression_nil.points tracks_new ps
  rw [List.nil_append, List.nil_append] at h
  exact h

/-- **What points report.**  Behind every run of points in which all detcalls succeed, the SDK has
handed to ring W one announcement of each name that the intern table takes, in front of the other
events about it, one report of each of them that was hit, one beacon for each slot that was hit, and
the violations of each name, counted up to the summary.  The events on ring W are those that it has
handed over, but for droppable ones. -/
theorem points_reported (hch : Canonical S.ch) (h : Untouched S w) {ops : List PointOp}
    (hbells : ∀ op ∈ ops, ∀ b ∈ op.bells, b.answers = true) :
  Suppression (pointsIn ops) (SdkState.new.points (pointsIn ops)).2 ∧
  ∃ L, Kept (SdkState.new.points (pointsIn ops)).2 L ∧
    ((S.pass w ops).published .W).map shown = L.filterMap tells
  := by
  obtain ⟨L, hkept, c, hreported⟩ := reported_pass hch h hbells
  exact ⟨suppression_new (pointsIn ops), L, hkept, hreported.published⟩

/-! ### Marks of truncation -/

/-- A flag is set exactly if it is added. -/
theorem truncated_or (flags : UInt8) (h : flags &&& flagTruncated = 0) (added : Bool) :
  ((flags ||| if added then flagTruncated else 0) &&& flagTruncated != 0) = added
  := by
  cases added with
  | false =>
      rw [if_neg (by simp), UInt8.or_zero, h]
      rfl
  | true =>
      have hset : (flags ||| flagTruncated) &&& flagTruncated = flagTruncated := by
        apply UInt8.toBitVec_inj.mp
        rw [UInt8.toBitVec_and, UInt8.toBitVec_or]
        ext i
        simp only [BitVec.getElem_and, BitVec.getElem_or]
        cases flagTruncated.toBitVec[i] <;> simp
      rw [if_pos rfl, hset]
      rfl

/-- What an event tells about a violation. -/
theorem tells_eq_violation {id count : UInt32} {text : Bytes} {truncated : Bool}
    (htells : tells e = some (.assertViolation id count text, truncated))
    (hflags : e.extraFlags &&& flagTruncated = 0) :
  ∃ details, violationOf id e = some (count, details) ∧ truncated = decide (maxDetails < details.length)
  := by
  obtain ⟨flags, ev, cls⟩ := e
  cases ev with
  | assertViolation i n details =>
      rw [tells, Option.map_eq_some_iff] at htells
      obtain ⟨owned, howned, hpair⟩ := htells
      cases Option.some.inj howned
      obtain ⟨hviolation, htruncated⟩ := Prod.mk.inj hpair
      cases hviolation
      refine ⟨details, if_pos rfl, ?_⟩
      rw [← htruncated]
      exact truncated_or flags hflags _
  | _ => cases htells

theorem violationOf_eq_some {id count : UInt32} {details : Bytes}
    (h : violationOf id e = some (count, details)) :
  e.ev = .assertViolation id count details ∧ ¬ e.ev.kind = .beacon
  := by
  obtain ⟨flags, ev, cls⟩ := e
  cases ev with
  | assertViolation i n text =>
      rw [violationOf] at h
      dsimp only at h
      split at h
      · next hid =>
        obtain ⟨rfl, rfl⟩ := Prod.mk.inj (Option.some.inj h)
        exact ⟨by rw [hid], by simp [EventPayload.kind]⟩
      · cases h
  | _ => cases h

/-- What an event tells about a name. -/
theorem tells_eq_nameIntern {id : UInt32} {name : Bytes} {decl truncated : Bool}
    (htells : tells e = some (.nameIntern id name decl, truncated)) :
  internedName e = some (id, name)
  := by
  obtain ⟨flags, ev, cls⟩ := e
  cases ev with
  | nameIntern i n =>
      rw [tells, Option.map_eq_some_iff] at htells
      obtain ⟨owned, howned, hpair⟩ := htells
      cases Option.some.inj howned
      obtain ⟨hintern, _⟩ := Prod.mk.inj hpair
      cases hintern
      rfl
  | _ => cases htells

/-- A drained violation is marked as truncated exactly if its details were clipped, or if it is the
summary behind which further violations are suppressed. -/
def WellMarked (before : List Point) (ev : GuestEvent) : Prop :=
  ∀ name ∈ names before, ∀ count text,
    ev.payload = .assertViolation (nameId (names before) name) count text →
    (ev.truncated = true ↔
      (∃ details, (count, details) ∈ reports (failures before name) ∧ maxDetails < details.length) ∨
      count = assertRepeatLimit + 1)

/-- No assertion of a name that was taken has failed so often that there is a summary. -/
def Unsuppressed (before : List Point) : Prop :=
  ∀ name ∈ names before, (failures before name).length ≤ assertRepeatLimit.toNat

section Marks

variable {before : List Point} {es : List Emission} {ev : GuestEvent}

/-- The mark of a violation says whether its details were clipped. -/
theorem truncated_of_tells (h : Suppression before es) {name text : Bytes} {count : UInt32}
    (hmem : name ∈ names before) (hev : shown ev ∈ es.filterMap tells)
    (hpayload : ev.payload = .assertViolation (nameId (names before) name) count text) :
  ∃ details, (count, details) ∈ reports (failures before name) ∧
    ev.truncated = decide (maxDetails < details.length)
  := by
  obtain ⟨e, he, htells⟩ := List.mem_filterMap.mp hev
  rw [shown, hpayload] at htells
  obtain ⟨details, hviolation, htruncated⟩ := tells_eq_violation htells (h.kinds e he).2.2
  refine ⟨details, ?_, htruncated⟩
  rw [← h.violations name hmem]
  exact List.mem_filterMap.mpr ⟨e, he, hviolation⟩

/-- Without a summary the marks are right. -/
theorem wellMarked_of_unsuppressed (h : Suppression before es) (hfew : Unsuppressed before)
    (hev : shown ev ∈ es.filterMap tells) :
  WellMarked before ev
  := by
  intro name hmem count text hpayload
  obtain ⟨details, hreport, htruncated⟩ := truncated_of_tells h hmem hev hpayload
  obtain ⟨hcount, hunique⟩ := count_of_report hreport
  rw [htruncated, decide_eq_true_eq]
  constructor
  · intro hclipped
    exact Or.inl ⟨details, hreport, hclipped⟩
  · rintro (⟨other, hother, hclipped⟩ | hlast)
    · rw [← hunique other hother]
      exact hclipped
    · have hlimit : assertRepeatLimit.toNat = 16 := rfl
      have hnext : (assertRepeatLimit + 1).toNat = 17 := rfl
      have hfailed := hfew name hmem
      rw [hlast] at hcount
      omega

/-- The summary is not marked. -/
theorem not_wellMarked_summary (h : Suppression before es) {name text : Bytes}
    (hmem : name ∈ names before) (hsuppressed : 16 < (failures before name).length)
    (hev : shown ev ∈ es.filterMap tells)
    (hpayload : ev.payload = .assertViolation (nameId (names before) name) 17 text) :
  ¬ WellMarked before ev
  := by
  intro hmarked
  have hmark := (hmarked name hmem 17 text hpayload).mpr (Or.inr rfl)
  obtain ⟨details, hreport, htruncated⟩ := truncated_of_tells h hmem hev hpayload
  have hdetails := (count_of_report hreport).2 _ (summary_reported hsuppressed)
  rw [htruncated, ← hdetails, decide_eq_true_eq] at hmark
  exact absurd hmark (by decide +kernel)

end Marks

/-- Behind a drain everything that was published has been drained. -/
theorem received_drain (hch : Canonical S.ch) {ops : List PointOp}
    (h : Holding (Reported S s L) (S.pass w ops)) :
  ((S.pass w (ops ++ [.drain])).received .W).map shown = L.filterMap tells
  := by
  obtain ⟨c, hc⟩ := h
  obtain ⟨h', hrun, hdrained⟩ := run_drain (ε := Empty) (stable_reported S s L) hch hc
  have hpass : S.pass w (ops ++ [.drain]) = (S.pass w ops).drainedBy c h' := by
    rw [Setting.pass, List.map_append, List.map_singleton, Machine.run_concat]
    change (S.step (S.pass w ops) .drain).1 = _
    rw [Setting.step, hrun]
  have hall : ((S.pass w ops).drainedBy c h').received .W
      = ((S.pass w ops).drainedBy c h').published .W := by
    rw [← hdrained.received]
    exact (List.append_nil _).symm
  rw [hpass, hall]
  exact hdrained.published

/-- When there is a summary, it is drained without its mark. -/
theorem unsuppressed_of_wellMarked (hch : Canonical S.ch) (h : Untouched S w) {ops : List PointOp}
    (hbells : ∀ op ∈ ops, ∀ b ∈ op.bells, b.answers = true)
    (hall : ∀ ev ∈ (S.pass w (ops ++ [.drain])).received .W, WellMarked (pointsIn ops) ev) :
  Unsuppressed (pointsIn ops)
  := by
  obtain ⟨L, hkept, hheld⟩ := reported_pass hch h hbells
  have hsuppression := suppression_new (pointsIn ops)
  have hdrain := received_drain hch hheld
  intro name hmem
  by_contra hmany
  have hsuppressed : 16 < (failures (pointsIn ops) name).length := Nat.lt_of_not_le hmany
  -- the summary was handed to ring W, and it is critical
  have hreport := summary_reported hsuppressed
  rw [← hsuppression.violations name hmem] at hreport
  obtain ⟨e, he, hviolation⟩ := List.mem_filterMap.mp hreport
  obtain ⟨hev, hcritical⟩ := violationOf_eq_some hviolation
  have hin : e ∈ L := by
    apply hkept.mem_of_critical he
    cases hcls : e.cls with
    | critical => rfl
    | droppable => exact absurd ((hsuppression.kinds e he).2.1.mp hcls) hcritical
  have htold : (OwnedPayload.assertViolation (nameId (names (pointsIn ops)) name) 17
      (suppressedDetails.take maxDetails), eventFlags e.extraFlags e.ev &&& flagTruncated != 0)
        ∈ L.filterMap tells := by
    apply List.mem_filterMap.mpr
    refine ⟨e, hin, ?_⟩
    rw [tells, hev]
    rfl
  rw [← hdrain] at htold
  obtain ⟨ev, hdrained, hshown⟩ := List.mem_map.mp htold
  apply not_wellMarked_summary hsuppression hmem hsuppressed _ (Prod.mk.inj hshown).1
    (hall ev hdrained)
  apply (hkept.1.filterMap tells).subset
  rw [← hdrain]
  exact List.mem_map_of_mem hdrained

/-- **Marks of suppressed violations.**  In a run in which all detcalls succeed, the drained violations
are marked as truncated exactly if their details were clipped or they are the summary, as long as no
assertion has failed so often that there is a summary.  Once there is one and it is drained, its mark
is missing. -/
theorem wellMarked_iff (hch : Canonical S.ch) (h : Untouched S w) {ops : List PointOp}
    (hbells : ∀ op ∈ ops, ∀ b ∈ op.bells, b.answers = true) :
  (Unsuppressed (pointsIn ops) →
    ∀ ev ∈ (S.pass w ops).received .W, WellMarked (pointsIn ops) ev) ∧
  ((∀ ev ∈ (S.pass w (ops ++ [.drain])).received .W, WellMarked (pointsIn ops) ev) ↔
    Unsuppressed (pointsIn ops))
  := by
  obtain ⟨L, hkept, hheld⟩ := reported_pass hch h hbells
  have hsuppression := suppression_new (pointsIn ops)
  refine ⟨?_, unsuppressed_of_wellMarked hch h hbells, ?_⟩
  · intro hfew ev hev
    obtain ⟨c, hc⟩ := hheld
    apply wellMarked_of_unsuppressed hsuppression hfew
    apply (hkept.1.filterMap tells).subset
    rw [← hc.published, ← hc.received]
    exact List.mem_map_of_mem (List.mem_append_left _ hev)
  · intro hfew ev hev
    apply wellMarked_of_unsuppressed hsuppression hfew
    apply (hkept.1.filterMap tells).subset
    rw [← received_drain hch hheld]
    exact List.mem_map_of_mem hev

/-- A name that the intern table has not taken is not announced. -/
theorem unannounced (hch : Canonical S.ch) (h : Untouched S w) {ops : List PointOp}
    (hbells : ∀ op ∈ ops, ∀ b ∈ op.bells, b.answers = true) {name : Bytes}
    (hmem : name ∉ names (pointsIn ops)) :
  ∀ ev ∈ (S.pass w ops).published .W, ∀ id decl, ev.payload ≠ .nameIntern id name decl
  := by
  obtain ⟨L, hkept, c, hc⟩ := reported_pass hch h hbells
  have hsuppression := suppression_new (pointsIn ops)
  intro ev hev id decl hpayload
  have htold : shown ev ∈ L.filterMap tells := by
    rw [← hc.published]
    exact List.mem_map_of_mem hev
  obtain ⟨e, he, htells⟩ := List.mem_filterMap.mp htold
  rw [shown, hpayload] at htells
  have hinterned : (id, name) ∈ (SdkState.new.points (pointsIn ops)).2.filterMap internedName :=
    List.mem_filterMap.mpr ⟨e, hkept.1.subset he, tells_eq_nameIntern htells⟩
  rw [hsuppression.interned] at hinterned
  obtain ⟨other, hother, heq⟩ := List.mem_map.mp hinterned
  exact hmem ((Prod.mk.inj heq).2 ▸ hother)

end Reports

theorem untouched_sampleWorld :
  Untouched sampleSetting sampleWorld
  := ⟨⟨.empty, holds_sampleWorld, rfl⟩, rfl, rfl, rfl, rfl⟩

/-- Names of two points and a beacon. -/
theorem points_reported_sample :
  let ops : List PointOp := [
    .point (.assertAlways false [97] [1]) [] [⟨true, false⟩],
    .point (.expectReachable [97]) [] [],
    .drain,
    .point (.coverageBeacon 5) [] [],
    .point (.injectPoint [98]) [] []]
  Suppression (pointsIn ops) (SdkState.new.points (pointsIn ops)).2 ∧
  ∃ L, Kept (SdkState.new.points (pointsIn ops)).2 L ∧
    ((sampleSetting.pass sampleWorld ops).published .W).map shown = L.filterMap tells
  := by
  apply points_reported canonical_canonicalChannel untouched_sampleWorld
  decide

/-- A name of eight letters with a number. -/
def numberedName (k : Nat) : Bytes := (List.range 8).map fun i => UInt8.ofNat (97 + k / 16 ^ i % 16)

/-- A number is determined by its digits. -/
theorem digits_inj (n : Nat) {k k' : Nat} (hk : k < 16 ^ n) (hk' : k' < 16 ^ n)
    (h : ∀ i < n, k / 16 ^ i % 16 = k' / 16 ^ i % 16) :
  k = k'
  := by
  induction n generalizing k k' with
  | zero => omega
  | succ n ih =>
      have hrest : k / 16 = k' / 16 := by
        apply ih (by omega) (by omega)
        intro i hi
        rw [Nat.div_div_eq_div_mul, Nat.div_div_eq_div_mul, ← Nat.pow_succ']
        exact h (i + 1) (by omega)
      have hlast := h 0 (by omega)
      omega

theorem numberedName_inj {k k' : Nat} (hk : k < 2 ^ 32) (hk' : k' < 2 ^ 32)
    (h : numberedName k = numberedName k') :
  k = k'
  := by
  apply digits_inj 8 hk hk'
  intro i hi
  have hbyte := List.map_inj_left.mp h i (List.mem_range.mpr hi)
  have hnat := congrArg UInt8.toNat hbyte
  rw [UInt8.toNat_ofNat', UInt8.toNat_ofNat'] at hnat
  omega

/-- Points that declare the first of the numbered names. -/
def declareNumbered (n : Nat) : List PointOp :=
  (List.range n).map fun k => .point (.declareReachable (numberedName k)) [] []

/-- Of more names than there are ids for, one is never announced. -/
theorem name_never_announced :
  ∃ k < maxNames + 1, validName (numberedName k) = true ∧
    ∀ ev ∈ (sampleSetting.pass sampleWorld (declareNumbered (maxNames + 1))).published .W,
      ∀ id decl, ev.payload ≠ .nameIntern id (numberedName k) decl
  := by
  obtain ⟨n, hn⟩ : ∃ n, n = maxNames + 1 := ⟨_, rfl⟩
  rw [← hn]
  have hshort : n ≤ 2 ^ 32 := hn ▸ (by decide)
  have hlen := length_names_le (pointsIn (declareNumbered n))
  have hbells : ∀ op ∈ declareNumbered n, ∀ b ∈ op.bells, b.answers = true := by
    intro op hop b hb
    obtain ⟨k, _, rfl⟩ := List.mem_map.mp hop
    cases hb
  by_contra hall
  have htaken : ∀ k < n, numberedName k ∈ names (pointsIn (declareNumbered n)) := by
    intro k hk
    by_contra hmem
    exact hall ⟨k, hk, rfl, unannounced canonical_canonicalChannel untouched_sampleWorld hbells hmem⟩
  have hnodup : ((List.range n).map numberedName).Nodup := by
    apply List.Nodup.map_on _ List.nodup_range
    intro k hk k' hk' heq
    rw [List.mem_range] at hk hk'
    exact numberedName_inj (by omega) (by omega) heq
  have hsubset : (List.range n).map numberedName ⊆ names (pointsIn (declareNumbered n)) := by
    intro name hname
    obtain ⟨k, hk, rfl⟩ := List.mem_map.mp hname
    exact htaken k (List.mem_range.mp hk)
  have hle := (hnodup.subperm hsubset).length_le
  rw [List.length_map, List.length_range] at hle
  omega

/-- The 17th violation of a name. -/
theorem summary_not_marked :
  let ops := List.replicate 17 (PointOp.point (.assertAlways false [97] []) [] [])
  ¬ ∀ ev ∈ (sampleSetting.pass sampleWorld (ops ++ [.drain])).received .W,
    WellMarked (pointsIn ops) ev
  := by
  intro ops hall
  have hfew := unsuppressed_of_wellMarked canonical_canonicalChannel untouched_sampleWorld
    (by decide) hall
  exact absurd (hfew [97] (by decide +kernel)) (by decide +kernel)

/-- Two violations of a name, one with long details. -/
theorem wellMarked_iff_two :
  let ops := [PointOp.point (.assertAlways false [97] (List.replicate 600 97)) [] [],
    .drain, .point (.assertAlways false [97] [1]) [] []]
  (Unsuppressed (pointsIn ops) →
    ∀ ev ∈ (sampleSetting.pass sampleWorld ops).received .W, WellMarked (pointsIn ops) ev) ∧
  ((∀ ev ∈ (sampleSetting.pass sampleWorld (ops ++ [.drain])).received .W,
      WellMarked (pointsIn ops) ev) ↔ Unsuppressed (pointsIn ops))
  := by
  apply wellMarked_iff canonical_canonicalChannel untouched_sampleWorld
  decide

end Protocol
