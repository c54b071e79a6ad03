import DetGuest.Protocol.Exits
import DetGuest.Sdk.History

/-!
# Points of a workload in its world

The instrumentation points of a workload, with all that happens around them.  A point moves the
state of the SDK as its history says, whatever the others do.  Which of its events are published
depends on the doorbells.
-/

namespace Protocol

open Wire Host Sdk

variable {π τ ε : Type}

/-! ### Conditions that follow the events -/

/-- The world behind the answer to an inject query. -/
def World.answering (w : World π τ) (p : π) (iseq : UInt32) (ops : List SinkOp) : World π τ :=
  { w with
    plan := p
    events := { w.events with host :=
      { ch := w.events.host.ch.answered iseq
        sink := w.events.host.sink ++ ops
        io := w.events.host.io } } }

/-- The calls of the SDK follow a condition.  `J s L` says that the state of the SDK is `s`, and that
the events `L` were published.  `R` says which of the events that are handed to ring W may have been published, if the
detcalls of each call are as `B` says. -/
structure Follows (S : Setting π τ) (J : SdkState → List Emission → World π τ → Contents → Prop)
    (R : List Emission → List Emission → Prop) (B : List Bell → Prop) : Prop where
  stable : ∀ s L, Stable S (J s L)
  sdk : ∀ {s L w c}, J s L w c → w.sdk = s
  setSdk : ∀ {s L w c} s', J s L w c → J s' L { w with sdk := s' } c
  calling : ∀ {s L w c} name pauses {bells}, B bells → J s L w c →
    J s L (w.calling name pauses bells) c
  answer : ∀ {s L w c} p iseq ops, J s L w c →
    Holds S.ch (w.answering p iseq ops).events c → J s L (w.answering p iseq ops) c
  setLatch : ∀ {s L w c} latch, J s L w c → J s L { w with latch } c
  emit : ∀ {s L w c} (e : Emission), J s L w c → e.ev.Encodable →
    ∃ L', R [e] L' ∧ Holding (J s (L ++ L')) ((S.platform.emitWEvent e).run w).1
  total : ∀ {s L w c} (e : Emission), J s L w c → e.ev.Encodable →
    ((S.platform.emitWEvent e).run w).2 ≠ .panic
  nil : R [] []
  append : ∀ {es L es' L'}, R es L → R es' L' → R (es ++ es') (L ++ L')

section Calls

variable {S : Setting π τ} {J : SdkState → List Emission → World π τ → Contents → Prop}
  {R : List Emission → List Emission → Prop} {B : List Bell → Prop} {s : SdkState} {L : List Emission} {w : World π τ}

/-- Events that are handed to ring W one after the other. -/
theorem Follows.emitEach (hJ : Follows S J R B) {es : List Emission} (hes : ∀ e ∈ es, e.ev.Encodable)
    (h : Holding (J s L) w) :
  ∃ w' L', (S.platform.emitEach es : Exec (World π τ) ε Unit).run w = (w', .ok ()) ∧ R es L' ∧
    Holding (J s (L ++ L')) w'
  := by
  induction es generalizing w L with
  | nil =>
      refine ⟨w, [], rfl, hJ.nil, ?_⟩
      rw [List.append_nil]
      exact h
  | cons e es ih =>
      obtain ⟨c, hc⟩ := h
      have he := hes e List.mem_cons_self
      obtain ⟨L₁, hR₁, h₁⟩ := hJ.emit e hc he
      have htotal := hJ.total e hc he
      obtain ⟨r, hrun⟩ : ∃ r, (Exec.attempt (S.platform.emitWEvent e)
          : Exec (World π τ) ε (Except InitError Unit)).run w
          = (((S.platform.emitWEvent e).run w).1, .ok r) := by
        rcases hres : (S.platform.emitWEvent e).run w with ⟨w', a | err | _⟩
        · exact ⟨_, Exec.run_attempt_of_ok hres⟩
        · exact ⟨_, Exec.run_attempt_of_err hres⟩
        · rw [hres] at htotal
          exact absurd rfl htotal
      obtain ⟨w₂, L₂, hrun₂, hR₂, h₂⟩ := ih (fun e he => hes e (List.mem_cons_of_mem _ he)) h₁
      refine ⟨w₂, L₁ ++ L₂, ?_, hJ.append hR₁ hR₂, ?_⟩
      · rw [Platform.emitEach, Exec.run_bind_of_ok hrun]
        exact hrun₂
      · rw [← List.append_assoc]
        exact h₂

/-- A call that changes the state and emits events. -/
theorem Follows.react (hJ : Follows S J R B) {f : SdkState → SdkState × List Emission}
    (hes : ∀ e ∈ (f s).2, e.ev.Encodable) (h : Holding (J s L) w) :
  ∃ w' L', (S.platform.react f : Exec (World π τ) ε Unit).run w = (w', .ok ()) ∧ R (f s).2 L' ∧
    Holding (J (f s).1 (L ++ L')) w'
  := by
  obtain ⟨c, hc⟩ := h
  have hsdk : S.platform.state.get w = s := hJ.sdk hc
  have hset : Holding (J (f s).1 L) { w with sdk := (f s).1 } := ⟨c, hJ.setSdk _ hc⟩
  obtain ⟨w', L', hrun, hR, h'⟩ := hJ.emitEach (ε := ε) hes hset
  refine ⟨w', L', ?_, hR, h'⟩
  rw [Platform.react, Exec.run_bind_of_ok (Exec.run_get w), hsdk,
    Exec.run_bind_of_ok (Exec.run_modify _ w)]
  exact hrun

/-- A name that is interned. -/
theorem Follows.internName (hJ : Follows S J R B) (name : Bytes) (flags : UInt8)
    (hes : ∀ e ∈ (s.internName name flags).2.1, e.ev.Encodable) (h : Holding (J s L) w) :
  ∃ w' L', (S.platform.internName name flags : Exec (World π τ) ε (Option UInt32)).run w
      = (w', .ok (s.internName name flags).2.2) ∧
    R (s.internName name flags).2.1 L' ∧ Holding (J (s.internName name flags).1 (L ++ L')) w'
  := by
  obtain ⟨c, hc⟩ := h
  have hsdk : S.platform.state.get w = s := hJ.sdk hc
  have hset : Holding (J (s.internName name flags).1 L)
      { w with sdk := (s.internName name flags).1 } := ⟨c, hJ.setSdk _ hc⟩
  obtain ⟨w', L', hrun, hR, h'⟩ := hJ.emitEach (ε := ε) hes hset
  refine ⟨w', L', ?_, hR, h'⟩
  rw [Platform.internName, Exec.run_bind_of_ok (Exec.run_get w), hsdk,
    Exec.run_bind_of_ok (Exec.run_modify _ w)]
  exact Exec.run_bind_of_ok hrun

/-- An answer leaves the rings alone. -/
theorem holds_answering {c : Contents} (h : Holds S.ch w.events c) (p : π) (iseq : UInt32)
    (ops : List SinkOp) :
  Holds S.ch (w.answering p iseq ops).events c
  := by
  have hplace : ∀ ch : Channel, (ch.answered iseq).header = ch.header ∧
      (ch.answered iseq).base = ch.base ∧ (ch.answered iseq).gm = ch.gm := by
    intro ch
    rw [Channel.answered]
    split <;> exact ⟨rfl, rfl, rfl⟩
  obtain ⟨hheader, hbase, hgm⟩ := hplace w.events.host.ch
  have hmem : (w.answering p iseq ops).events.mem = w.events.mem := congrArg GuestMem.bytes hgm
  apply h.step
  · exact hheader
  · exact hbase
  · dsimp only [World.answering]
    rw [hgm, hbase]
    exact h.mapped
  · intro g
    exact Or.inr ⟨rfl, fun i _ => congrFun hmem i⟩
  · exact Or.inr ⟨rfl, fun i _ => congrFun hmem i⟩
  · exact Or.inr ⟨rfl, fun i _ => congrFun hmem i⟩

/-- The host answers an inject query. -/
theorem Follows.detcallOut (hJ : Follows S J R B) (hch : Canonical S.ch) (iseq : UInt32) :
  Exec.Triple (Holding (J s L)) (S.detcallOut portInject iseq) (fun _ => Holding (J s L))
    (Holding (J s L))
  := by
  have hanswer : Exec.Triple (Holding (J s L))
      (Exec.focus Setting.responder (Host.answer S.plan S.dbg iseq) : Exec _ InitError UInt32)
      (fun _ => Holding (J s L)) (Holding (J s L)) := by
    apply Exec.triple_focus
    rintro w ⟨c, h⟩
    have hstable := hJ.stable s L
    have hnext : ∀ p ops, Holding (J s L) (w.answering p iseq ops) :=
      fun p ops => ⟨c, hJ.answer p iseq ops h (holds_answering (hstable.holds h) p iseq ops)⟩
    rw [run_answer S.plan S.dbg iseq (Setting.responder.get w) rfl]
    split
    · next heq =>
      obtain ⟨rfl, _⟩ := Prod.mk.inj heq
      exact hnext _ _
    · next heq =>
      obtain ⟨rfl, _⟩ := Prod.mk.inj heq
      exact hnext _ _
  rw [Setting.detcallOut, if_pos rfl]
  apply (triple_detcall (hJ.stable s L) hch).bind
  intro _
  apply hanswer.bind
  intro latch
  apply Exec.triple_modify
  rintro w ⟨c, h⟩
  exact ⟨c, hJ.setLatch latch h⟩

theorem Follows.detcallIn (hJ : Follows S J R B) (hch : Canonical S.ch) (port : UInt16) :
  Exec.Triple (Holding (J s L)) (S.detcallIn port) (fun _ => Holding (J s L)) (Holding (J s L))
  := by
  apply (triple_detcall (hJ.stable s L) hch).bind
  intro _
  apply (Exec.triple_get (R := fun _ => Holding (J s L)) fun _ h => h).bind
  intro w
  exact Exec.triple_pure fun _ h => h

/-- The exchange of an inject query. -/
theorem Follows.query (hJ : Follows S J R B) (hch : Canonical S.ch) (iseq nameId : UInt32)
    (h : Holding (J s L) w) :
  ∃ L', R [⟨0, .injectQuery iseq nameId, .critical⟩] L' ∧
    Holding (J s (L ++ L')) ((S.platform.query iseq nameId).run w).1
  := by
  obtain ⟨c, hc⟩ := h
  obtain ⟨L', hR, h'⟩ := hJ.emit ⟨0, .injectQuery iseq nameId, .critical⟩ hc trivial
  refine ⟨L', hR, ?_⟩
  have hemit : Exec.Triple (fun v => v = w)
      (S.platform.emitWEvent ⟨0, .injectQuery iseq nameId, .critical⟩)
      (fun _ => Holding (J s (L ++ L'))) (Holding (J s (L ++ L'))) := by
    apply Exec.triple_of_always
    rintro v rfl
    exact h'
  have hquery : Exec.Triple (fun v => v = w) (S.platform.query iseq nameId)
      (fun _ => Holding (J s (L ++ L'))) (Holding (J s (L ++ L'))) := by
    apply (hemit.bind fun _ => triple_detcall (hJ.stable _ _) hch).bind
    intro _
    apply (hJ.detcallOut hch iseq).bind
    intro _
    apply (hJ.detcallIn hch portInject).bind
    intro packed
    exact Exec.triple_pure fun _ h => h
  exact hquery.always rfl

/-! ### The events of a point -/

theorem internName_encodable (s : SdkState) (name : Bytes) (flags : UInt8) :
  ∀ e ∈ (s.internName name flags).2.1, e.ev.Encodable
  := by
  rcases s.internName_cases name flags with h | ⟨id, h, _⟩ | ⟨s', h, hfresh, _⟩
  · rw [h]
    intro e he
    cases he
  · rw [h]
    intro e he
    cases he
  · rw [h]
    intro e he
    rw [List.mem_singleton.mp he]
    exact of_decide_eq_true hfresh.valid

theorem point_encodable (s : SdkState) (p : Point) :
  ∀ e ∈ (s.point p).2, e.ev.Encodable
  := by
  have hintern := internName_encodable
  cases p with
  | assertAlways cond name details =>
      rw [SdkState.point, SdkState.assertAlways]
      specialize hintern s name 0
      rcases hinterned : s.internName name 0 with ⟨s', out, _ | id⟩ <;> rw [hinterned] at hintern
      · exact hintern
      · dsimp only at hintern ⊢
        split
        · exact hintern
        · intro e he
          rcases List.mem_append.mp he with he | he
          · exact hintern e he
          · obtain ⟨n, text, rfl⟩ := s'.assertFailed_emits id details e he
            trivial
  | expectReachable name =>
      rw [SdkState.point, SdkState.expectReachable]
      specialize hintern s name 0
      rcases hinterned : s.internName name 0 with ⟨s', out, _ | id⟩ <;> rw [hinterned] at hintern
      · exact hintern
      · intro e he
        rcases List.mem_append.mp he with he | he
        · exact hintern e he
        · rw [s'.reached_emits id e he]
          trivial
  | declareReachable name => exact hintern s name flagReachableDecl
  | coverageBeacon id =>
      intro e he
      rw [SdkState.point, SdkState.coverageBeacon] at he
      dsimp only at he
      split at he
      · rw [List.mem_singleton.mp he]
        trivial
      · cases he
  | injectPoint name =>
      rw [SdkState.point]
      specialize hintern s.countInject name 0
      rcases hinterned : s.countInject.internName name 0 with ⟨s', out, _ | id⟩ <;>
        rw [hinterned] at hintern
      · exact hintern
      · intro e he
        rcases List.mem_append.mp he with he | he
        · exact hintern e he
        · rw [List.mem_singleton.mp he]
          trivial

/-- An inject point. -/
theorem Follows.injectPoint (hJ : Follows S J R B) (hch : Canonical S.ch) (name : Bytes)
    (h : Holding (J s L) w) :
  ∃ L', R (s.point (.injectPoint name)).2 L' ∧
    Holding (J (s.point (.injectPoint name)).1 (L ++ L'))
      ((S.platform.injectPoint name : Exec (World π τ) ε FaultDecision).run w).1
  := by
  obtain ⟨c, hc⟩ := h
  have hsdk : S.platform.state.get w = s := hJ.sdk hc
  have hcount : Holding (J s.countInject L) { w with sdk := s.countInject } := ⟨c, hJ.setSdk _ hc⟩
  obtain ⟨w₁, L₁, hrun₁, hR₁, h₁⟩ := hJ.internName (ε := ε) name 0
    (internName_encodable s.countInject name 0) hcount
  have hmodify : (Exec.modify fun w => S.platform.state.set w (S.platform.state.get w).countInject
      : Exec (World π τ) ε Unit).run w = ({ w with sdk := s.countInject }, .ok ()) := by
    rw [Exec.run_modify, hsdk]
    rfl
  rw [Platform.injectPoint, Exec.run_bind_of_ok hmodify, Exec.run_bind_of_ok hrun₁, SdkState.point]
  rcases hinterned : s.countInject.internName name 0 with ⟨s', out, _ | id⟩ <;>
    rw [hinterned] at hR₁ h₁
  · exact ⟨L₁, hR₁, h₁⟩
  · dsimp only at hR₁ h₁ ⊢
    obtain ⟨c₁, hc₁⟩ := h₁
    have hsdk₁ : w₁.sdk = s' := hJ.sdk hc₁
    have htake : (S.platform.takeIseq : Exec (World π τ) ε UInt32).run w₁
        = ({ w₁ with sdk := { s' with nextIseq := s'.nextIseq + 1 } }, .ok s'.nextIseq) := by
      rw [← hsdk₁]
      rfl
    obtain ⟨L₂, hR₂, h₂⟩ := hJ.query hch s'.nextIseq id
      ⟨c₁, hJ.setSdk { s' with nextIseq := s'.nextIseq + 1 } hc₁⟩
    have hquery : Exec.Triple
        (fun v => v = { w₁ with sdk := { s' with nextIseq := s'.nextIseq + 1 } })
        (S.platform.query s'.nextIseq id)
        (fun _ => Holding (J { s' with nextIseq := s'.nextIseq + 1 } (L ++ L₁ ++ L₂)))
        (Holding (J { s' with nextIseq := s'.nextIseq + 1 } (L ++ L₁ ++ L₂))) := by
      apply Exec.triple_of_always
      rintro v rfl
      exact h₂
    refine ⟨L₁ ++ L₂, hJ.append hR₁ hR₂, ?_⟩
    rw [← List.append_assoc, Exec.run_bind_of_ok htake]
    apply Exec.Triple.always (hquery.attempt.bind _) rfl
    intro decision
    cases decision with
    | ok decision => exact Exec.triple_pure fun _ h => h
    | error e => exact Exec.triple_pure fun _ h => h

/-- **A point in the world.**  The SDK goes on as its history says, and of its events those are
published that may be. -/
theorem Follows.call (hJ : Follows S J R B) (hch : Canonical S.ch) (p : Point) (h : Holding (J s L) w) :
  ∃ L', R (s.point p).2 L' ∧
    Holding (J (s.point p).1 (L ++ L')) ((S.platform.call p.call).run w).1
  := by
  have hreact : ∀ f : SdkState → SdkState × List Emission, f s = s.point p →
      ∃ L', R (s.point p).2 L' ∧ Holding (J (s.point p).1 (L ++ L'))
        ((do
          S.platform.react f
          pure Returned.done : Exec (World π τ) Empty Returned).run w).1 := by
    intro f hf
    have hes := point_encodable s p
    rw [← hf] at hes ⊢
    obtain ⟨w', L', hrun, hR, h'⟩ := hJ.react (ε := Empty) hes h
    refine ⟨L', hR, ?_⟩
    rw [Exec.run_bind_of_ok hrun]
    exact h'
  cases p with
  | assertAlways cond name details => exact hreact _ rfl
  | expectReachable name => exact hreact _ rfl
  | declareReachable name => exact hreact _ rfl
  | coverageBeacon id => exact hreact _ rfl
  | injectPoint name =>
      obtain ⟨L', hR, h'⟩ := hJ.injectPoint (ε := Empty) hch name h
      refine ⟨L', hR, ?_⟩
      rw [Point.call, Platform.call]
      rcases hrun : (S.platform.injectPoint name : Exec (World π τ) Empty FaultDecision).run w
        with ⟨w', a | e | _⟩
      · rw [hrun] at h'
        rw [Exec.run_bind_of_ok hrun]
        exact h'
      · cases e
      · rw [hrun] at h'
        rw [Exec.run_bind_of_panic hrun]
        exact h'

end Calls

/-! ### Runs of points -/

/-- A step of a run of points: a point with its script, or a drain between two points. -/
inductive PointOp where
  | point (p : Point) (pauses : List Pause) (bells : List Bell)
  | drain
  deriving DecidableEq, Repr

/-- The step of the world. -/
def PointOp.op : PointOp → WorldOp
  | .point p pauses bells => .call p.call pauses bells
  | .drain => .drain

/-- The point of a step. -/
def PointOp.point? : PointOp → Option Point
  | .point p _ _ => some p
  | .drain => none

/-- The detcalls of a step. -/
def PointOp.bells : PointOp → List Bell
  | .point _ _ bells => bells
  | .drain => []

/-- The points of a run. -/
def pointsIn (ops : List PointOp) : List Point := ops.filterMap PointOp.point?

/-- The world behind a run of points. -/
def Setting.pass (S : Setting π τ) (w : World π τ) (ops : List PointOp) : World π τ :=
  (Machine.run S.step w (ops.map PointOp.op)).1

section Runs

variable {S : Setting π τ} {J : SdkState → List Emission → World π τ → Contents → Prop}
  {R : List Emission → List Emission → Prop} {B : List Bell → Prop} {s : SdkState}
  {L : List Emission} {w : World π τ}

/-- **A run in the world.** -/
theorem Follows.pass (hJ : Follows S J R B) (hch : Canonical S.ch) {ops : List PointOp}
    (hops : ∀ op ∈ ops, B op.bells) (h : Holding (J s L) w) :
  ∃ L', R (s.points (pointsIn ops)).2 L' ∧
    Holding (J (s.points (pointsIn ops)).1 (L ++ L')) (S.pass w ops)
  := by
  induction ops generalizing s L w with
  | nil =>
      refine ⟨[], hJ.nil, ?_⟩
      rw [List.append_nil]
      exact h
  | cons op ops ih =>
      have hrest : ∀ op ∈ ops, B op.bells := fun op hop => hops op (List.mem_cons_of_mem _ hop)
      cases op with
      | point p pauses bells =>
          obtain ⟨c, hc⟩ := h
          have hcalling := hJ.calling p.call.name pauses (hops _ List.mem_cons_self) hc
          obtain ⟨L₁, hR₁, h₁⟩ := hJ.call hch p ⟨c, hcalling⟩
          obtain ⟨L₂, hR₂, h₂⟩ := ih hrest h₁
          refine ⟨L₁ ++ L₂, hJ.append hR₁ hR₂, ?_⟩
          rw [← List.append_assoc]
          exact h₂
      | drain =>
          obtain ⟨c, hc⟩ := h
          obtain ⟨h', hrun, hdrained⟩ := run_drain (ε := Empty) (hJ.stable s L) hch hc
          have hstep : (S.step w .drain).1 = w.drainedBy c h' := by
            rw [Setting.step, hrun]
          apply ih hrest
          change Holding (J s L) (S.step w .drain).1
          rw [hstep]
          exact ⟨_, hdrained⟩

end Runs

/-! ### The state of the SDK -/

/-- The rings hold their contents, and the state of the SDK is `s`. -/
structure Knows (S : Setting π τ) (s : SdkState) (w : World π τ) (c : Contents) : Prop where
  holds : Holds S.ch w.events c
  sdk : w.sdk = s

theorem stable_knows (S : Setting π τ) (s : SdkState) :
  Stable S (Knows S s)
  := by
  constructor
  · exact fun h => h.holds
  · intro w c c' m vnanos agentVnanos pauses bells h hholds _ _
    exact ⟨hholds, h.sdk⟩
  · intro w c h' h hholds _
    exact ⟨hholds, h.sdk⟩

/-- The calls of the SDK move its state whatever the detcalls do. -/
theorem follows_knows {S : Setting π τ} (hch : Canonical S.ch) :
  Follows S (fun s _ => Knows S s) (fun _ _ => True) (fun _ => True)
  := by
  constructor
  · exact fun s _ => stable_knows S s
  · exact fun h => h.sdk
  · exact fun s' h => ⟨h.holds, rfl⟩
  · exact fun _ _ _ _ h => ⟨h.holds, h.sdk⟩
  · exact fun _ _ _ h hholds => ⟨hholds, h.sdk⟩
  · exact fun _ h => ⟨h.holds, h.sdk⟩
  · intro s L w c e h hev
    have hpub : Publishes S (Knows S s) (Knows S s) e.extraFlags e.ev :=
      fun w c p vnanos new h _ hholds => ⟨hholds, h.sdk⟩
    have hemit := triple_emitWEvent (stable_knows S s) hch hev hpub
    refine ⟨[], trivial, ?_⟩
    apply (hemit.post _).always ⟨c, h⟩
    rintro _ w' (h' | ⟨_, h'⟩)
    · exact h'
    · exact h'
  · exact fun e h hev => run_emitWEvent_total (stable_knows S _) hch hev h
  · trivial
  · exact fun _ _ => trivial

/-- **The state of the SDK behind a run.**  It is moved by the points of the run only. -/
theorem sdk_pass {S : Setting π τ} (hch : Canonical S.ch) {w : World π τ} {c : Contents}
    (h : Holds S.ch w.events c) (ops : List PointOp) :
  (S.pass w ops).sdk = (w.sdk.points (pointsIn ops)).1
  := by
  obtain ⟨L, _, c', h'⟩ := (follows_knows hch).pass hch (L := []) (fun _ _ => trivial) ⟨c, ⟨h, rfl⟩⟩
  exact h'.sdk

end Protocol
