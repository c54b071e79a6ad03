import DetGuest.Protocol.Naming
import DetGuest.Protocol.Reports

/-!
# Names of a workload in its world

Runs of all calls of the SDK, with the agent and the host around it, in which the doorbells succeed.
-/

namespace Protocol

open Wire Host Sdk Wire.Regionipc

variable {π τ ε : Type}

/-! ### Conditions that ride along -/

/-- A condition on the rings, the host, the plan and the script that holds throughout a call. -/
structure Rides (S : Setting π τ) (call : Call) (X : World π τ → Contents → Prop) : Prop where
  quiet : ∀ {w w' c c'} m, X w c → w'.events = w.events.setMem m → w'.plan = w.plan →
    w'.bells <:+ w.bells → c'.events = c.events → X w' c'
  drain : ∀ {w w' c} h, X w c → w'.events = { w.events with host := h } →
    h.ch = ((c.events .A ++ c.events .W).foldl Channel.foldRec w.events.host.ch).withMem
      h.ch.gm.bytes → w'.plan = w.plan → w'.bells = w.bells → X w' c.drained
  publish : ∀ {w w' c g p new vnanos flags ev}, X w c → Holds S.ch w.events c → ev.Encodable →
    new = eventRecs (ringOf S.ch g.id) (w.events.mem.u32 (ringOf S.ch g.id).prod)
      (w.events.nextSeq g) vnanos flags ev →
    (ev.kind = .injectQuery → call.Injects) → w'.events = w.events.setProducer g p →
    w'.plan = w.plan → w'.bells = w.bells → X w' (c.push g new)
  answer : ∀ {w c} p iseq ops, call.Injects → X w c → X (w.answering p iseq ops) c

/-- No condition. -/
theorem rides_true (S : Setting π τ) (call : Call) : Rides S call fun _ _ => True
  := ⟨fun _ _ _ _ _ _ => trivial, fun _ _ _ _ _ _ => trivial, fun _ _ _ _ _ _ _ _ => trivial,
    fun _ _ _ _ _ => trivial⟩

/-- The invariant inside a call: the state of the SDK is `s`, and the names of `T` were announced. -/
structure Walking (S : Setting π τ) (redefs : Nat) (call : Call) (X : World π τ → Contents → Prop)
    (D : UInt32 → Prop) (T : List (Bytes × UInt32)) (s : SdkState) (w : World π τ) (c : Contents) :
    Prop where
  naming : Naming S redefs D T w c
  rides : X w c
  sdk : w.sdk = s
  caller : w.caller = call.name

/-- The ids that were declared: those of `D`, and the new ones if the call declares its name. -/
def declaredBy (call : Call) (s₀ s : SdkState) (D : UInt32 → Prop) (id : UInt32) : Prop :=
  D id ∨ call.flags &&& flagReachableDecl ≠ 0 ∧
    ∃ name, (name, id) ∈ s.intern.bindings ∧ (name, id) ∉ s₀.intern.bindings

/-- The invariant between the steps of a call that started in state `s₀`. -/
def Walked (S : Setting π τ) (redefs : Nat) (call : Call) (X : World π τ → Contents → Prop)
    (D : UInt32 → Prop) (s₀ s : SdkState) (w : World π τ) : Prop :=
  Numbered s.intern ∧ (∀ b ∈ s₀.intern.bindings, b ∈ s.intern.bindings) ∧
    Holding (Walking S redefs call X (declaredBy call s₀ s D) s.intern.bindings s) w

section Walking

variable {S : Setting π τ} {redefs : Nat} {call : Call} {X : World π τ → Contents → Prop}
  {D D' : UInt32 → Prop} {T : List (Bytes × UInt32)} {s₀ s s' : SdkState} {w : World π τ}
  {e : Sdk.Emission}

theorem stable_walking (hX : Rides S call X) (D : UInt32 → Prop) (T : List (Bytes × UInt32))
    (s : SdkState) :
  Stable S (Walking S redefs call X D T s)
  := by
  have hstable := stable_naming S redefs D T
  constructor
  · exact fun h => h.naming.holds
  · intro w c c' m vnanos agentVnanos pauses bells h hholds hevents hbells
    exact ⟨hstable.quiet m vnanos agentVnanos pauses h.naming hholds hevents hbells,
      hX.quiet m h.rides rfl rfl hbells hevents, h.sdk, h.caller⟩
  · intro w c h' h hholds hfold
    exact ⟨hstable.drain h' h.naming hholds hfold, hX.drain h' h.rides rfl hfold rfl rfl, h.sdk,
      h.caller⟩

/-- An event that a call may hand to ring W. -/
theorem publishes_walking (hX : Rides S call X) {flags : UInt8} {ev : EventPayload}
    (hev : ev.Encodable) (hplain : ev.kind ≠ .nameIntern)
    (hquery : ev.kind = .injectQuery → call.Injects)
    (hnamed : ∀ id, ev.about = some id → ∃ name, call.name = some name ∧ (name, id) ∈ T) :
  Publishes S (Walking S redefs call X D T s) (Walking S redefs call X D T s) flags ev
  := by
  intro w c p vnanos new h hnew hholds
  refine ⟨?_, hX.publish (g := .W) h.rides h.naming.holds hev hnew hquery rfl rfl rfl, h.sdk,
    h.caller⟩
  apply h.naming.publish_plain (g := .W) hev hplain hnew hholds
  intro id hid
  obtain ⟨name, hname, hmem⟩ := hnamed id hid
  refine ⟨name, h.caller.trans hname, ?_⟩
  rw [h.naming.announced]
  exact hmem

/-- The announcement of a new name. -/
theorem publishes_announcement (hX : Rides S call X) {flags : UInt8} {name : Bytes} {id : UInt32}
    (hfresh : ∀ name', (name', id) ∉ T)
    (hD : ∀ id', D' id' ↔ D id' ∨ id' = id ∧ flags &&& flagReachableDecl ≠ 0)
    (hev : (EventPayload.nameIntern id name).Encodable) :
  Publishes S (Walking S redefs call X D T s) (Walking S redefs call X D' (T ++ [(name, id)]) s)
    flags (.nameIntern id name)
  := by
  intro w c p vnanos new h hnew hholds
  exact ⟨h.naming.publish_new hfresh hD hev hnew hholds,
    hX.publish (g := .W) h.rides h.naming.holds hev hnew (by simp [EventPayload.kind]) rfl rfl rfl,
    h.sdk, h.caller⟩

/-- Steps that change nothing that the names depend on. -/
theorem Walking.quietly {c : Contents} (hX : Rides S call X)
    (h : Walking S redefs call X D T s w c) (w' : World π τ) (hevents : w'.events = w.events)
    (hplan : w'.plan = w.plan) (hbells : w'.bells = w.bells) (hcaller : w'.caller = w.caller)
    (hlanded : w'.landed = w.landed) (hdrained : w'.drained = w.drained) :
  Walking S redefs call X D T w'.sdk w' c
  := by
  have htold : ∀ g, w'.told g = w.told g := by
    intro g
    rw [World.told, World.told, hlanded]
  have hannounced : ∀ g, w'.announced g = w.announced g := by
    intro g
    rw [World.announced, World.announced, htold]
  refine ⟨⟨hevents ▸ h.naming.holds, hbells ▸ h.naming.bells, h.naming.once, ?_, ?_, ?_, ?_,
    h.naming.marked, ?_, hevents ▸ h.naming.consistent, hevents ▸ h.naming.known,
    hevents ▸ h.naming.redefinitions, hdrained ▸ h.naming.drained⟩,
    hX.quiet w.mem h.rides hevents hplan (hbells ▸ List.suffix_refl _) rfl, rfl,
    hcaller.trans h.caller⟩
  · exact fun g => htold g ▸ h.naming.preceded g
  · exact (hannounced .W).trans h.naming.announced
  · exact fun g => htold g ▸ h.naming.bound g
  · exact htold .W ▸ h.naming.declared
  · exact fun g => htold g ▸ h.naming.flow g

/-- The evidence of the agent for a request of the call. -/
theorem serves_walking (hX : Rides S call X) {req : Request}
    (hreq : ∀ name id, req.names = some (name, id) → call.name = some name ∧ (name, id) ∈ T) :
  Serving S (Walking S redefs call X D T s) req
  := by
  constructor
  · intro w c agent h
    exact h.sdk ▸ h.quietly hX { w with agent } rfl rfl rfl rfl rfl rfl
  · intro name r hnames hlen
    obtain ⟨hname, hmem⟩ := hreq name r.nameId hnames
    -- behind the announcement the name is announced on ring A
    let J : World π τ → Contents → Prop := fun w c =>
      Walking S redefs call X D T s w c ∧ (name, r.nameId) ∈ w.announced .A
    have hstable := @stable_walking _ _ _ redefs _ _ hX D T s
    have hJ : Stable S J := by
      constructor
      · exact fun h => h.1.naming.holds
      · intro w c c' m vnanos agentVnanos pauses bells h hholds hevents hbells
        exact ⟨hstable.quiet m vnanos agentVnanos pauses h.1 hholds hevents hbells, h.2⟩
      · intro w c h' h hholds hfold
        exact ⟨hstable.drain h' h.1 hholds hfold, h.2⟩
    have hregister : (EventPayload.regionRegister r).Encodable := trivial
    have hintern : (EventPayload.nameIntern r.nameId name).Encodable := hlen
    refine ⟨J, J, hJ, hJ, ?_, ?_, fun w ⟨c, h⟩ => ⟨c, h.1⟩, fun w h => h⟩
    · intro w c p vnanos new h hnew hholds
      have hannounced : (name, r.nameId) ∈ (w.publish .A p new).announced .A := by
        rw [announced_publish (g := .A) h.naming hintern hnew]
        exact List.mem_append_right _ (List.mem_singleton.mpr rfl)
      exact ⟨⟨h.naming.publish_again hmem hintern hnew hholds, hX.publish (g := .A) h.rides
        h.naming.holds hintern hnew (by simp [EventPayload.kind]) rfl rfl rfl, h.sdk, h.caller⟩,
        hannounced⟩
    · intro w c p vnanos new h hnew hholds
      refine ⟨⟨?_, hX.publish (g := .A) h.1.rides h.1.naming.holds hregister hnew
        (by simp [EventPayload.kind]) rfl rfl rfl, h.1.sdk, h.1.caller⟩, ?_⟩
      · apply h.1.naming.publish_plain (g := .A) hregister (by simp [EventPayload.kind]) hnew hholds
        rintro _ ⟨rfl⟩
        exact ⟨name, h.1.caller.trans hname, h.2⟩
      · rw [announced_publish (g := .A) h.1.naming hregister hnew]
        exact List.mem_append_left _ h.2

/-! ### The calls -/

theorem binds_eq_some {payload : OwnedPayload} {b : Bytes × UInt32} (h : payload.binds = some b) :
  ∃ decl, payload = .nameIntern b.2 b.1 decl
  := by
  cases payload with
  | nameIntern nameId name decl =>
      obtain rfl := Option.some.inj h
      exact ⟨decl, rfl⟩
  | _ => cases h

/-- Only calls that declare a name announce it as declared. -/
theorem flags_declared (call : Call) :
  call.flags &&& flagReachableDecl ≠ 0 ↔ ∃ name, call = .declareReachable name
  := by
  have hset : flagReachableDecl &&& flagReachableDecl ≠ 0 := by decide
  have hclear : (0 : UInt8) &&& flagReachableDecl = 0 := by decide
  cases call with
  | declareReachable name => exact ⟨fun _ => ⟨name, rfl⟩, fun _ => hset⟩
  | _ => simp [Call.flags, hclear]

/-- The ids that are declared depend on the names only. -/
theorem declaredBy_congr (hsame : s.SameNames s') (D : UInt32 → Prop) :
  declaredBy call s₀ s' D = declaredBy call s₀ s D
  := by
  funext id
  rw [declaredBy, declaredBy, hsame.bindings]

/-- The ids that are declared behind a new name. -/
theorem declaredBy_binds {name : Bytes} (hsub : ∀ b ∈ s₀.intern.bindings, b ∈ s.intern.bindings)
    (hnumbered : Numbered s.intern) (hbinds : Binds s s' name) (D : UInt32 → Prop) (id : UInt32) :
  declaredBy call s₀ s' D id ↔
    declaredBy call s₀ s D id ∨ id = s.intern.nextId ∧ call.flags &&& flagReachableDecl ≠ 0
  := by
  have hnew : ∀ name', (name', s.intern.nextId) ∉ s₀.intern.bindings :=
    fun name' hmem => hnumbered.fresh name' (hsub _ hmem)
  rw [declaredBy, declaredBy, hbinds.bindings]
  constructor
  · rintro (hD | ⟨hflag, name', hmem, hout⟩)
    · exact Or.inl (Or.inl hD)
    · rcases List.mem_append.mp hmem with hmem | hmem
      · exact Or.inl (Or.inr ⟨hflag, name', hmem, hout⟩)
      · obtain ⟨_, rfl⟩ := Prod.mk.inj (List.mem_singleton.mp hmem)
        exact Or.inr ⟨rfl, hflag⟩
  · rintro ((hD | ⟨hflag, name', hmem, hout⟩) | ⟨rfl, hflag⟩)
    · exact Or.inl hD
    · exact Or.inr ⟨hflag, name', List.mem_append_left _ hmem, hout⟩
    · exact Or.inr ⟨hflag, name, List.mem_append_right _ (List.mem_singleton.mpr rfl), hnew name⟩

/-- An answer to an inject query. -/
theorem Walking.answering {c : Contents} {X' : World π τ → Contents → Prop}
    (h : Walking S redefs call X D T s w c) {p : π} {iseq : UInt32} {ops : List SinkOp}
    (hX' : X' (w.answering p iseq ops) c) :
  Walking S redefs call X' D T s (w.answering p iseq ops) c
  := by
  have hplace : ∀ ch : Channel, (ch.answered iseq).interns = ch.interns ∧
      (ch.answered iseq).internRedefinitions = ch.internRedefinitions := by
    intro ch
    rw [Channel.answered]
    split <;> exact ⟨rfl, rfl⟩
  obtain ⟨hinterns, hredefs⟩ := hplace w.events.host.ch
  refine ⟨⟨holds_answering h.naming.holds p iseq ops, h.naming.bells, h.naming.once,
    h.naming.preceded, h.naming.announced, h.naming.bound, h.naming.declared, h.naming.marked,
    h.naming.flow, ?_, ?_, hredefs.trans h.naming.redefinitions, h.naming.drained⟩,
    hX', h.sdk, h.caller⟩
  · dsimp only [World.answering]
    rw [hinterns]
    exact h.naming.consistent
  · dsimp only [World.answering]
    rw [hinterns]
    exact h.naming.known

/-- The workload polls ring I. -/
theorem triple_poll {I : World π τ → Contents → Prop} (hI : Stable S I) (hch : Canonical S.ch) :
  Exec.Triple (Holding I)
    (Exec.focus Setting.memory (Sdk.pollWorkloadCtrl S.dbg (ringOf S.ch .I))
      : Exec (World π τ) Sdk.InitError (Option WorkloadCtrl)) (fun _ => Holding I) (Holding I)
  := by
  apply Exec.triple_of_always
  rintro w ⟨c, h⟩
  obtain ⟨m, hrun, hholds⟩ := (hI.holds h).pollWorkloadCtrl hch S.dbg
  rw [run_memory hrun]
  exact ⟨_, hI.quiet m w.vnanos w.agent.vnanos w.pauses h hholds rfl (List.suffix_refl _)⟩

/-- **The calls of the SDK keep the names.** -/
theorem walks_names (hX : Rides S call X) (hch : Canonical S.ch) (D : UInt32 → Prop)
    (s₀ : SdkState) :
  Walks S.platform call (Walked S redefs call X D s₀)
  := by
  have hstable : ∀ s, Stable S (Walking S redefs call X (declaredBy call s₀ s D)
      s.intern.bindings s) := fun s => stable_walking hX _ _ s
  -- a computation that keeps the condition on the world
  have hkeep : ∀ {ε α : Type} {x : Exec (World π τ) ε α} {s : SdkState} {w : World π τ},
      Exec.Triple (Holding (Walking S redefs call X (declaredBy call s₀ s D) s.intern.bindings s)) x
        (fun _ => Holding (Walking S redefs call X (declaredBy call s₀ s D) s.intern.bindings s))
        (Holding (Walking S redefs call X (declaredBy call s₀ s D) s.intern.bindings s)) →
      Walked S redefs call X D s₀ s w → Walked S redefs call X D s₀ s (x.run w).1 :=
    fun hx h => ⟨h.1, h.2.1, hx.always h.2.2⟩
  constructor
  · rintro s w ⟨_, _, c, h⟩
    exact h.sdk
  · rintro s s' w ⟨hnumbered, hsub, c, h⟩ hsame
    refine ⟨hnumbered.same hsame, ?_, c, ?_⟩
    · rw [hsame.bindings]
      exact hsub
    · rw [declaredBy_congr hsame, hsame.bindings]
      exact h.quietly hX { w with sdk := s' } rfl rfl rfl rfl rfl rfl
  · rintro s s' w name ⟨hnumbered, hsub, c, h⟩ hname hbinds
    have hsub' : ∀ b ∈ s₀.intern.bindings, b ∈ s'.intern.bindings := by
      intro b hb
      rw [hbinds.bindings]
      exact List.mem_append_left _ (hsub b hb)
    have hstart : Walking S redefs call X (declaredBy call s₀ s D) s.intern.bindings s'
        { w with sdk := s' } c :=
      h.quietly hX { w with sdk := s' } rfl rfl rfl rfl rfl rfl
    have hev : (announcement s call name).ev.Encodable := of_decide_eq_true hbinds.fresh.valid
    have hpub : Publishes S (Walking S redefs call X (declaredBy call s₀ s D) s.intern.bindings s')
        (Walking S redefs call X (declaredBy call s₀ s' D) s'.intern.bindings s')
        (announcement s call name).extraFlags (announcement s call name).ev := by
      rw [hbinds.bindings]
      exact publishes_announcement hX hnumbered.fresh
        (declaredBy_binds hsub hnumbered hbinds D) hev
    have htime : OnTime S { w with sdk := s' } (announcement s call name).ev :=
      Or.inr (Or.inr (answered_of_all h.naming.bells))
    obtain ⟨w', hrun, h'⟩ := run_emitWEvent_inTime (stable_walking hX _ _ s') hch hev rfl hpub
      hstart htime
    refine ⟨hnumbered.binds hbinds, hsub', ?_⟩
    have hsame : ((S.platform.emitWEvent (announcement s call name)).run
        (S.platform.state.set w s')).1 = w' := congrArg Prod.fst hrun
    rw [hsame]
    exact h'
  · intro s w e h hspeaks
    apply hkeep _ h
    have hpub := @publishes_walking _ _ _ redefs _ _ (declaredBy call s₀ s D) s.intern.bindings s
      hX e.extraFlags _ hspeaks.encodable hspeaks.plain hspeaks.query hspeaks.named
    apply (triple_emitWEvent (hstable s) hch hspeaks.encodable hpub).post
    rintro _ w' (h' | ⟨_, h'⟩)
    · exact h'
    · exact h'
  · intro s w h
    exact hkeep (triple_detcall (hstable s) hch) h
  · intro s w iseq hinjects h
    apply hkeep _ h
    have hanswer : Exec.Triple (Holding (Walking S redefs call X (declaredBy call s₀ s D)
          s.intern.bindings s))
        (Exec.focus Setting.responder (Host.answer S.plan S.dbg iseq) : Exec _ InitError UInt32)
        (fun _ => Holding (Walking S redefs call X (declaredBy call s₀ s D) s.intern.bindings s))
        (Holding (Walking S redefs call X (declaredBy call s₀ s D) s.intern.bindings s)) := by
      apply Exec.triple_focus
      rintro w ⟨c, h⟩
      have hnext : ∀ p ops, Holding (Walking S redefs call X (declaredBy call s₀ s D)
          s.intern.bindings s) (w.answering p iseq ops) :=
        fun p ops => ⟨c, h.answering (hX.answer p iseq ops hinjects h.rides)⟩
      rw [run_answer S.plan S.dbg iseq (Setting.responder.get w) rfl]
      split
      · next heq =>
        obtain ⟨rfl, _⟩ := Prod.mk.inj heq
        exact hnext _ _
      · next heq =>
        obtain ⟨rfl, _⟩ := Prod.mk.inj heq
        exact hnext _ _
    change Exec.Triple _ (S.detcallOut portInject iseq) _ _
    rw [Setting.detcallOut, if_pos rfl]
    apply (triple_detcall (hstable s) hch).bind
    intro _
    apply hanswer.bind
    intro latch
    apply Exec.triple_modify
    rintro w ⟨c, h⟩
    exact ⟨c, h.sdk ▸ h.quietly hX { w with latch } rfl rfl rfl rfl rfl rfl⟩
  · intro s w port h
    apply hkeep _ h
    apply (triple_detcall (hstable s) hch).bind
    intro _
    apply (Exec.triple_get (R := fun _ => Holding (Walking S redefs call X
      (declaredBy call s₀ s D) s.intern.bindings s)) fun _ h => h).bind
    intro w
    exact Exec.triple_pure fun _ h => h
  · intro s w h
    apply hkeep _ h
    apply (triple_pause (hstable s) hch).bind
    intro _
    exact triple_poll (hstable s) hch
  · intro s w ptr len h
    apply hkeep _ h
    apply (triple_pause (hstable s) hch).bind
    intro p
    exact Exec.triple_failIf (fun _ h _ => h) fun _ h _ => h
  · intro s req n hasks hn
    rintro w ⟨hnumbered, hsub, h⟩
    have htransport := triple_transport (hstable s) hch (serves_walking hX hasks) hn w h
    have hplatform : S.platform.transport = S.transport := rfl
    rw [hplatform]
    rcases hrun : (S.transport (((encodeRequest req).run (Bytes.zeros maxDatagram)).1.take n)).run w
      with ⟨w', reply | e | _⟩ <;> rw [hrun] at htransport
    · exact ⟨⟨hnumbered, hsub, htransport.1⟩, htransport.2⟩
    · exact ⟨hnumbered, hsub, htransport⟩
    · exact ⟨hnumbered, hsub, htransport⟩

end Walking

/-! ### Runs -/

/-- The names that the SDK gave an id. -/
def World.bindings (w : World π τ) : List (Bytes × UInt32) := w.sdk.intern.bindings

/-- The world behind the steps of a run. -/
def Setting.after (S : Setting π τ) (w : World π τ) (ops : List WorldOp) : World π τ :=
  (Machine.run S.step w ops).1

/-- All detcalls of a step succeed. -/
def WorldOp.Answered : WorldOp → Prop
  | .call _ _ bells => ∀ b ∈ bells, b.answers = true
  | .drain => True

/-- A step binds an id, and declares its name. -/
def Declares (S : Setting π τ) (w : World π τ) (op : WorldOp) (id : UInt32) : Prop :=
  ∃ name pauses bells, op = .call (.declareReachable name) pauses bells ∧
    (name, id) ∉ w.bindings ∧ (name, id) ∈ (S.step w op).1.bindings

/-- The id was bound by a call that declared its name. -/
def DeclaredIn (S : Setting π τ) (w : World π τ) (ops : List WorldOp) (id : UInt32) : Prop :=
  ∃ front op back, ops = front ++ op :: back ∧ Declares S (S.after w front) op id

/-- The names between the steps of a run. -/
structure Named (S : Setting π τ) (redefs : Nat) (X : World π τ → Contents → Prop)
    (D : UInt32 → Prop) (w : World π τ) (c : Contents) : Prop where
  naming : Naming S redefs D w.bindings w c
  numbered : Numbered w.sdk.intern
  rides : X w c

section Runs

variable {S : Setting π τ} {redefs : Nat} {X : World π τ → Contents → Prop}
  {D D' : UInt32 → Prop} {w : World π τ} {c : Contents}

theorem after_nil : S.after w [] = w := rfl

theorem after_concat (ops : List WorldOp) (op : WorldOp) :
  S.after w (ops ++ [op]) = (S.step (S.after w ops) op).1
  := by
  rw [Setting.after, Machine.run_concat]
  rfl

theorem declaredIn_nil {id : UInt32} : ¬ DeclaredIn S w [] id
  := by
  rintro ⟨front, op, back, heq, _⟩
  cases front <;> cases heq

/-- What is declared behind one more step. -/
theorem declaredIn_concat {ops : List WorldOp} {op : WorldOp} {id : UInt32} :
  DeclaredIn S w (ops ++ [op]) id ↔ DeclaredIn S w ops id ∨ Declares S (S.after w ops) op id
  := by
  constructor
  · rintro ⟨front, op', back, heq, hdeclares⟩
    rcases List.eq_nil_or_concat back with rfl | ⟨rest, last, rfl⟩
    · obtain ⟨rfl, hlast⟩ := List.append_inj' heq rfl
      obtain rfl := List.singleton_inj.mp hlast
      exact Or.inr hdeclares
    · rw [List.concat_eq_append, ← List.cons_append, ← List.append_assoc] at heq
      obtain ⟨rfl, _⟩ := List.append_inj' heq rfl
      exact Or.inl ⟨front, op', rest, rfl, hdeclares⟩
  · rintro (⟨front, op', back, rfl, hdeclares⟩ | hdeclares)
    · exact ⟨front, op', back ++ [op], by simp, hdeclares⟩
    · exact ⟨ops, op, [], rfl, hdeclares⟩

/-- The condition depends on which ids are declared only. -/
theorem Named.congr (h : Named S redefs X D w c) (hD : ∀ id, D id ↔ D' id) :
  Named S redefs X D' w c
  := by
  obtain rfl : D = D' := funext fun id => propext (hD id)
  exact h

/-- A drain between two calls. -/
theorem Named.drain {call : Call} (hch : Canonical S.ch) (hX : Rides S call X)
    (h : Named S redefs X D w c) :
  ∃ h', (S.step w .drain).1 = w.drainedBy c h' ∧
    Named S redefs X D (w.drainedBy c h') c.drained ∧
    h'.ch = ((c.events .A ++ c.events .W).foldl Channel.foldRec w.events.host.ch).withMem
      h'.ch.gm.bytes
  := by
  obtain ⟨h', hrun, hholds, hfold, _⟩ := h.naming.holds.drain hch S.dbg
  refine ⟨h', ?_, ⟨?_, h.numbered, hX.drain h' h.rides rfl hfold rfl rfl⟩, hfold⟩
  · rw [Setting.step, Setting.drain, Exec.run_modify, hrun]
    rfl
  · exact (stable_naming S redefs D w.bindings).drain h' h.naming hholds hfold

/-- At the start of a call. -/
theorem Named.walked {call : Call} {pauses : List Pause} {bells : List Bell}
    (hbells : ∀ b ∈ bells, b.answers = true) {X' : World π τ → Contents → Prop}
    (h : Named S redefs X D w c) (hcalling : X' (w.calling call.name pauses bells) c) :
  Walked S redefs call X' D w.sdk w.sdk (w.calling call.name pauses bells)
  := by
  refine ⟨h.numbered, fun _ hb => hb, c, ?_⟩
  have hsame : declaredBy call w.sdk w.sdk D = D := by
    funext id
    apply propext
    constructor
    · rintro (hd | ⟨_, name, hin, hout⟩)
      · exact hd
      · exact absurd hin hout
    · exact Or.inl
  rw [hsame]
  exact ⟨⟨h.naming.holds, hbells, h.naming.once, h.naming.preceded, h.naming.announced,
    h.naming.bound, h.naming.declared, h.naming.marked, h.naming.flow, h.naming.consistent,
    h.naming.known, h.naming.redefinitions, h.naming.drained⟩, hcalling, rfl, rfl⟩

/-- A call. -/
theorem Named.call {call : Call} {pauses : List Pause} {bells : List Bell} (hch : Canonical S.ch)
    (hX : Rides S call X) (hbells : ∀ b ∈ bells, b.answers = true)
    (h : Named S redefs X D w c) (hcalling : X (w.calling call.name pauses bells) c) :
  Grows w.sdk call (S.step w (.call call pauses bells)).1.sdk ∧
    Holding (Named S redefs X (fun id => D id ∨ Declares S w (.call call pauses bells) id))
      (S.step w (.call call pauses bells)).1
  := by
  have hwalked := h.walked hbells hcalling
  have hwalks := @walks_names _ _ _ redefs _ _ hX hch D w.sdk
  obtain ⟨s', hgrows, hnumbered, hsub, c', hwalking⟩ := hwalks.call.always hwalked
  have hstep : (S.step w (.call call pauses bells)).1
      = ((S.platform.call call).run (w.calling call.name pauses bells)).1 := rfl
  rw [← hstep] at hwalking
  obtain rfl := hwalking.sdk
  refine ⟨hgrows, c', ?_⟩
  have hnamed : Named S redefs X
      (declaredBy call w.sdk (S.step w (.call call pauses bells)).1.sdk D)
      (S.step w (.call call pauses bells)).1 c' := ⟨hwalking.naming, hnumbered, hwalking.rides⟩
  apply hnamed.congr
  intro id
  apply or_congr_right
  constructor
  · rintro ⟨hflag, name, hin, hout⟩
    obtain ⟨name', rfl⟩ := (flags_declared call).mp hflag
    -- the name that is new is that of the call
    rcases hgrows.names with hsame | ⟨name'', hname, hbinds⟩
    · rw [hsame.bindings] at hin
      exact absurd hin hout
    · obtain rfl := Option.some.inj hname
      rw [hbinds.bindings, List.mem_append, List.mem_singleton] at hin
      obtain ⟨rfl, rfl⟩ := Prod.mk.inj (hin.resolve_left hout)
      refine ⟨_, pauses, bells, rfl, hout, ?_⟩
      rw [World.bindings, hbinds.bindings]
      exact List.mem_append_right _ (List.mem_singleton.mpr rfl)
  · rintro ⟨name, _, _, heq, hout, hin⟩
    obtain ⟨rfl, _, _⟩ := WorldOp.call.inj heq
    exact ⟨(flags_declared _).mpr ⟨name, rfl⟩, name, hin, hout⟩

/-- **The names of a run.** -/
theorem run_named (hch : Canonical S.ch) (hX : ∀ call, Rides S call X)
    (hcalling : ∀ w c name pauses bells, X w c → X (w.calling name pauses bells) c)
    {ops : List WorldOp} (hops : ∀ op ∈ ops, op.Answered) (h : Named S redefs X (fun _ => False) w c) :
  Holding (Named S redefs X (DeclaredIn S w ops)) (S.after w ops)
  := by
  induction ops using List.reverseRecOn with
  | nil => exact ⟨c, h.congr fun id => (iff_false_intro declaredIn_nil).symm⟩
  | append_singleton ops op ih =>
      obtain ⟨c', hnamed⟩ := ih fun op hop => hops op (List.mem_append_left _ hop)
      rw [after_concat]
      cases op with
      | call call pauses bells =>
          have hbells := hops _ (List.mem_append_right _ List.mem_cons_self)
          obtain ⟨_, c'', hnext⟩ := hnamed.call hch (hX call) hbells
            (hcalling _ _ _ _ _ hnamed.rides)
          exact ⟨c'', hnext.congr fun id => declaredIn_concat.symm⟩
      | drain =>
          obtain ⟨h', hstep, hnext, _⟩ := hnamed.drain hch (hX .frameMark)
          rw [hstep]
          refine ⟨_, hnext.congr fun id => ?_⟩
          rw [declaredIn_concat]
          constructor
          · exact Or.inl
          · rintro (hdeclared | ⟨name, pauses, bells, heq, _⟩)
            · exact hdeclared
            · cases heq

end Runs

/-! ### The names of a workload -/

/-- A world in which nothing has happened: the SDK is new, the rings are empty and the host knows no
names. -/
structure Newborn (S : Setting π τ) (w : World π τ) : Prop where
  holds : ∃ c, Holds S.ch w.events c ∧ ∀ g, c.events g = []
  sdk : w.sdk = .new
  landed : w.landed = []
  drained : w.drained = []
  bells : w.bells = []
  interns : w.events.host.ch.interns = ∅

section Workload

variable {S : Setting π τ} {w : World π τ} {ops : List WorldOp}

theorem Newborn.told (h : Newborn S w) (g : GuestRing) : w.told g = []
  := by
  rw [World.told, h.landed]
  rfl

theorem Newborn.bindings (h : Newborn S w) : w.bindings = []
  := by
  rw [World.bindings, h.sdk]
  rfl

/-- The names of a world in which nothing has happened. -/
theorem Newborn.named {X : World π τ → Contents → Prop} {c : Contents} (h : Newborn S w)
    (hholds : Holds S.ch w.events c) (hempty : ∀ g, c.events g = []) (hX : X w c) :
  Named S w.events.host.ch.internRedefinitions X (fun _ => False) w c
  := by
  have hnumbered : Numbered w.sdk.intern := by
    rw [h.sdk]
    exact numbered_new
  have hbindings := h.bindings
  refine ⟨⟨hholds, by simp [h.bells], ?_, ?_, ?_, ?_, ?_, ?_, ?_, ?_, ?_, rfl, by simp [h.drained]⟩,
    hnumbered, hX⟩
  · rw [hbindings]
    intro name name' id hmem
    cases hmem
  · intro g
    rw [h.told]
    exact Log.preceded_nil
  · rw [World.announced, h.told, hbindings]
    rfl
  · intro g t ht
    rw [h.told] at ht
    cases ht
  · intro t ht
    rw [h.told] at ht
    cases ht
  · exact fun id hd => hd.elim
  · intro g rec hrec
    rw [hempty] at hrec
    cases hrec
  · intro id e he
    rw [h.interns] at he
    simp at he
  · intro name id hmem
    rw [hbindings] at hmem
    cases hmem

theorem Newborn.run (h : Newborn S w) (hch : Canonical S.ch) (hops : ∀ op ∈ ops, op.Answered) :
  Holding (Named S w.events.host.ch.internRedefinitions (fun _ _ => True) (DeclaredIn S w ops))
    (S.after w ops)
  := by
  obtain ⟨c, hholds, hempty⟩ := h.holds
  exact run_named hch (rides_true S) (fun _ _ _ _ _ _ => trivial) hops (h.named hholds hempty trivial)

theorem newborn_sampleWorld : Newborn sampleSetting sampleWorld
  := ⟨⟨_, holds_sampleWorld, fun _ => rfl⟩, rfl, rfl, rfl, rfl, rfl⟩

/-- A name is declared, and hit twice, with a drain in between. -/
def sampleSteps : List WorldOp :=
  [.call (.declareReachable [97]) [] [], .call (.expectReachable [97]) [] [⟨true, true⟩], .drain,
    .call (.expectReachable [98]) [⟨[], true, false⟩] []]

theorem answered_sampleSteps : ∀ op ∈ sampleSteps, op.Answered
  := by simp [sampleSteps, WorldOp.Answered]

/-- **What is told about a name follows its announcement.**  In a run of calls of the SDK with the
agent and the host around it, in which the detcalls succeed, the names that are announced on ring W
are those of the SDK's table, which counts them from one in the order of their first use; the agent
announces none but these; and each record about a name, on ring A or W, has the announcement of the
name in front of it on the same ring, with the name that the call was given. -/
theorem names_announced (hch : Canonical S.ch) (h : Newborn S w) (hops : ∀ op ∈ ops, op.Answered) :
  let w' := S.after w ops
  w'.announced .W = w'.bindings ∧ Numbered w'.sdk.intern ∧
    (∀ b ∈ w'.announced .A, b ∈ w'.bindings) ∧
    ∀ front l back payload id, w'.landed = front ++ l :: back →
      payloadOf l.bytes = some payload → payload.about = some id →
        ∃ l' ∈ front, l'.ring = l.ring ∧ ∃ name decl,
          payloadOf l'.bytes = some (.nameIntern id name decl) ∧ l.caller = some name
  := by
  obtain ⟨c, hnamed⟩ := h.run hch hops
  refine ⟨hnamed.naming.announced, hnamed.numbered, ?_, ?_⟩
  · intro b hb
    obtain ⟨t, ht, hbinds⟩ := List.mem_filterMap.mp hb
    obtain ⟨decl, hpayload⟩ := binds_eq_some hbinds
    exact (hnamed.naming.bound .A t ht _ _ decl hpayload).1
  · intro front l back payload id heq hpay habout
    have hpreceded := hnamed.naming.preceded l.ring
    rw [World.told, List.filterMap_filter] at hpreceded
    have htold : (if decide (l.ring = l.ring) = true then l.told else none)
        = some ⟨l.caller, payload⟩ := by
      rw [if_pos (decide_eq_true rfl), Landed.told, hpay]
      rfl
    obtain ⟨l', hmem, t, ht, name, id', hbinds, habout', hcaller⟩ :=
      hpreceded.of_filterMap heq htold (by simp [Told.needs, habout])
    rw [habout, Option.some.injEq] at habout'
    subst habout'
    by_cases hring : l'.ring = l.ring
    · rw [if_pos (decide_eq_true hring), Landed.told, Option.map_eq_some_iff] at ht
      obtain ⟨payload', hpay', rfl⟩ := ht
      obtain ⟨decl, rfl⟩ := binds_eq_some hbinds
      exact ⟨l', hmem, hring, name, decl, hpay', hcaller⟩
    · rw [if_neg (by simp [hring])] at ht
      cases ht

theorem names_announced_sample :
  let w' := sampleSetting.after sampleWorld sampleSteps
  w'.announced .W = w'.bindings ∧ Numbered w'.sdk.intern ∧
    (∀ b ∈ w'.announced .A, b ∈ w'.bindings) ∧
    ∀ front l back payload id, w'.landed = front ++ l :: back →
      payloadOf l.bytes = some payload → payload.about = some id →
        ∃ l' ∈ front, l'.ring = l.ring ∧ ∃ name decl,
          payloadOf l'.bytes = some (.nameIntern id name decl) ∧ l.caller = some name
  := names_announced canonical_canonicalChannel newborn_sampleWorld answered_sampleSteps

/-- **The host resolves the names.**  In such a run the host's table holds names of the SDK's table
only, under their ids, and no redefinition is counted; every drain succeeds, and behind it the host
resolves the id of each event that it returned to the name in the SDK's table. -/
theorem host_resolves (hch : Canonical S.ch) (h : Newborn S w) (hops : ∀ op ∈ ops, op.Answered) :
  let w' := S.after w ops
  (∀ id name, w'.events.host.ch.internName id = some name →
      ∃ raw, (raw, id) ∈ w'.bindings ∧ name = Utf8.fromUtf8Lossy raw) ∧
    w'.events.host.ch.internRedefinitions = w.events.host.ch.internRedefinitions ∧
    ∀ d ∈ w'.drained, ∃ evs, d.res = .ok evs ∧ ∀ ev ∈ evs, ∀ id, ev.payload.about = some id →
      ∃ raw, (raw, id) ∈ w'.bindings ∧ d.ch.internName id = some (Utf8.fromUtf8Lossy raw)
  := by
  obtain ⟨c, hnamed⟩ := h.run hch hops
  refine ⟨?_, hnamed.naming.redefinitions, hnamed.naming.drained⟩
  intro id name hname
  rw [Channel.internName, Option.map_eq_some_iff] at hname
  obtain ⟨e, he, rfl⟩ := hname
  obtain ⟨raw, hmem, hraw, _⟩ := hnamed.naming.consistent id e he
  exact ⟨raw, hmem, hraw⟩

theorem host_resolves_sample :
  let w' := sampleSetting.after sampleWorld sampleSteps
  (∀ id name, w'.events.host.ch.internName id = some name →
      ∃ raw, (raw, id) ∈ w'.bindings ∧ name = Utf8.fromUtf8Lossy raw) ∧
    w'.events.host.ch.internRedefinitions = sampleWorld.events.host.ch.internRedefinitions ∧
    ∀ d ∈ w'.drained, ∃ evs, d.res = .ok evs ∧ ∀ ev ∈ evs, ∀ id, ev.payload.about = some id →
      ∃ raw, (raw, id) ∈ w'.bindings ∧ d.ch.internName id = some (Utf8.fromUtf8Lossy raw)
  := host_resolves canonical_canonicalChannel newborn_sampleWorld answered_sampleSteps

/-- **Behind a drain the tables agree.**  Behind such a run and a drain, the host's table has the ids
of the SDK's table, with the same names, and the declared targets are those ids that were bound by a
call that declared its name. -/
theorem tables_agree (hch : Canonical S.ch) (h : Newborn S w) (hops : ∀ op ∈ ops, op.Answered) :
  let w' := S.after w (ops ++ [.drain])
  (∀ id name, w'.events.host.ch.internName id = some name ↔
      ∃ raw, (raw, id) ∈ w'.bindings ∧ name = Utf8.fromUtf8Lossy raw) ∧
    ∀ id, id ∈ w'.events.host.ch.declaredReachables ↔ DeclaredIn S w ops id
  := by
  obtain ⟨c, hnamed⟩ := h.run hch hops
  obtain ⟨h', hstep, hnext, hfold⟩ := hnamed.drain hch (rides_true S .frameMark)
  have hinterns : h'.ch.interns = ((c.events .A ++ c.events .W).foldl Channel.foldRec
      (S.after w ops).events.host.ch).interns := by
    rw [hfold]
    rfl
  rw [after_concat, hstep]
  dsimp only [World.drainedBy]
  constructor
  · intro id name
    rw [Channel.internName, Option.map_eq_some_iff]
    constructor
    · rintro ⟨e, he, rfl⟩
      obtain ⟨raw, hmem, hraw, _⟩ := hnext.naming.consistent id e he
      exact ⟨raw, hmem, hraw⟩
    · rintro ⟨raw, hmem, rfl⟩
      obtain ⟨e, he, _⟩ := hnamed.naming.drainAll hinterns hmem
      obtain ⟨raw', hmem', hraw', _⟩ := hnext.naming.consistent id e he
      exact ⟨e, he, hraw'.trans (congrArg _ (hnext.naming.once _ _ _ hmem' hmem))⟩
  · intro id
    rw [Channel.declaredReachables, List.mem_map]
    constructor
    · rintro ⟨⟨_, e⟩, hmem, rfl⟩
      rw [List.mem_filter, Std.ExtTreeMap.mem_toList_iff_getElem?_eq_some] at hmem
      obtain ⟨_, _, _, hdeclared⟩ := hnext.naming.consistent _ e hmem.1
      exact hdeclared hmem.2
    · intro hdeclared
      obtain ⟨raw, hmem⟩ := hnamed.naming.marked id hdeclared
      obtain ⟨e, he, hmark⟩ := hnamed.naming.drainAll hinterns hmem
      refine ⟨(id, e), ?_, rfl⟩
      rw [List.mem_filter, Std.ExtTreeMap.mem_toList_iff_getElem?_eq_some]
      exact ⟨he, hmark hdeclared⟩

theorem tables_agree_sample :
  let w' := sampleSetting.after sampleWorld (sampleSteps ++ [.drain])
  (∀ id name, w'.events.host.ch.internName id = some name ↔
      ∃ raw, (raw, id) ∈ w'.bindings ∧ name = Utf8.fromUtf8Lossy raw) ∧
    ∀ id, id ∈ w'.events.host.ch.declaredReachables ↔
      DeclaredIn sampleSetting sampleWorld sampleSteps id
  := tables_agree canonical_canonicalChannel newborn_sampleWorld answered_sampleSteps

end Workload

end Protocol
