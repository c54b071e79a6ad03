import DetGuest.Lib.Hoare
import DetGuest.Sdk.Calls

/-!
# What the calls of the SDK say

Whatever platform the SDK runs on, a call hands ring W only events that can be encoded, that have
the class of their kind and that are about the name that the call was given; a name that is new is
announced before anything else is said about it.
-/

namespace Wire

/-- The id of the name that an event is about, when it does not announce the name. -/
def EventPayload.about : EventPayload → Option UInt32
  | .assertViolation nameId _ _ => some nameId
  | .reachable nameId => some nameId
  | .injectQuery _ nameId => some nameId
  | .regionRegister r => some r.nameId
  | .regionUpdate r => some r.nameId
  | _ => none

/-- The name that a request registers, under its id. -/
def Regionipc.Request.names : Regionipc.Request → Option (Bytes × UInt32)
  | .register _ _ nameId _ _ name => some (name, nameId)
  | .unregister _ => none

end Wire

namespace Sdk

open Wire Wire.Regionipc

/-! ### What a call may say -/

/-- The flags with which a call announces a name. -/
def Call.flags : Call → UInt8
  | .declareReachable _ => flagReachableDecl
  | _ => 0

/-- The call is an inject point. -/
def Call.Injects (c : Call) : Prop := ∃ name, c = .injectPoint name

/-- An event that a call hands to ring W, other than an announcement: it can be encoded, its class
is that of its kind, only inject points ask for decisions, and if it is about a name then the name is
the one that the call was given, under its id. -/
structure Speaks (s : SdkState) (c : Call) (e : Emission) : Prop where
  encodable : e.ev.Encodable
  classed : e.cls = .critical ↔ e.ev.kind.isCritical = true
  plain : e.ev.kind ≠ .nameIntern
  query : e.ev.kind = .injectQuery → c.Injects
  named : ∀ id, e.ev.about = some id →
    ∃ name, c.name = some name ∧ (name, id) ∈ s.intern.bindings

/-- A request of a call: the name that it registers is that of the call, under its id. -/
def Asks (s : SdkState) (c : Call) (req : Request) : Prop :=
  ∀ name nameId, req.names = some (name, nameId) →
    c.name = some name ∧ (name, nameId) ∈ s.intern.bindings

/-- A reply that grants a registration grants it for the id of the request. -/
def Answers (req : Request) (reply : Reply) : Prop :=
  reply.status = Status.ok.toU16 →
    ∀ name nameId, req.names = some (name, nameId) → reply.nameId = nameId

/-- A call gives a name the next id. -/
structure Binds (s s' : SdkState) (name : Bytes) : Prop where
  fresh : s.intern.Fresh name
  bindings : s'.intern.bindings = s.intern.bindings ++ [(name, s.intern.nextId)]
  nextId : s'.intern.nextId = s.intern.nextId + 1

/-- The ids of a table count from one, in the order of first use, and its names are distinct. -/
structure Numbered (t : InternTable) : Prop where
  ids : t.bindings.map Prod.snd
    = (List.range t.bindings.length).map fun k => UInt32.ofNat (k + 1)
  nextId : t.nextId = UInt32.ofNat (t.bindings.length + 1)
  room : t.bindings.length + 1 < 2 ^ 32
  names : (t.bindings.map Prod.fst).Nodup

/-- The announcement of the next name. -/
def announcement (s : SdkState) (c : Call) (name : Bytes) : Emission :=
  ⟨c.flags, .nameIntern s.intern.nextId name, .critical⟩

/-- A new state and the events that go with it: the names are as they were, or there is a new one and
its announcement comes first. -/
inductive Reacts (s : SdkState) (c : Call) : SdkState × List Emission → Prop where
  | same {s' : SdkState} {es : List Emission} (hsame : s.SameNames s')
      (hiseq : s'.nextIseq = s.nextIseq) (hes : ∀ e ∈ es, Speaks s' c e) : Reacts s c (s', es)
  | new {s' : SdkState} {es : List Emission} {name : Bytes} (hname : c.name = some name)
      (hbinds : Binds s s' name) (hiseq : s'.nextIseq = s.nextIseq)
      (hes : ∀ e ∈ es, Speaks s' c e) :
      Reacts s c (s', announcement s c name :: es)

/-- What a call does to the names: nothing, or it binds the name that it was given.  Only inject
points take sequence numbers. -/
structure Grows (s : SdkState) (c : Call) (s' : SdkState) : Prop where
  names : s.SameNames s' ∨ ∃ name, c.name = some name ∧ Binds s s' name
  iseq : ¬ c.Injects → s'.nextIseq = s.nextIseq

section Reacts

variable {s s' s'' : SdkState} {c : Call} {e : Emission} {es : List Emission} {name : Bytes}
  {id : UInt32}

theorem SdkState.SameNames.trans (h : s.SameNames s') (h' : s'.SameNames s'') :
  s.SameNames s''
  := ⟨h'.bindings.trans h.bindings, h'.nextId.trans h.nextId⟩

theorem Binds.then (h : Binds s s' name) (hsame : s'.SameNames s'') :
  Binds s s'' name
  := ⟨h.fresh, hsame.bindings.trans h.bindings, hsame.nextId.trans h.nextId⟩

theorem Speaks.congr (h : Speaks s c e) (hsame : s.SameNames s') :
  Speaks s' c e
  := by
  refine ⟨h.encodable, h.classed, h.plain, h.query, ?_⟩
  intro id hid
  rw [hsame.bindings]
  exact h.named id hid

theorem numbered_new : Numbered SdkState.new.intern := ⟨rfl, rfl, by decide, List.nodup_nil⟩

theorem Numbered.same (h : Numbered s.intern) (hsame : s.SameNames s') : Numbered s'.intern
  := by
  refine ⟨?_, ?_, ?_, ?_⟩
  · rw [hsame.bindings]
    exact h.ids
  · rw [hsame.bindings, hsame.nextId]
    exact h.nextId
  · rw [hsame.bindings]
    exact h.room
  · rw [hsame.bindings]
    exact h.names

/-- The next id is free. -/
theorem Numbered.fresh {t : InternTable} (h : Numbered t) (name : Bytes) :
  (name, t.nextId) ∉ t.bindings
  := by
  intro hmem
  have hid := List.mem_map_of_mem (f := Prod.snd) hmem
  rw [h.ids, List.mem_map] at hid
  obtain ⟨k, hk, heq⟩ := hid
  rw [List.mem_range] at hk
  have hroom := h.room
  have hnat := congrArg UInt32.toNat heq
  dsimp only at hnat
  rw [h.nextId, UInt32.toNat_ofNat_of_lt' (Nat.lt_trans (Nat.succ_lt_succ hk) hroom),
    UInt32.toNat_ofNat_of_lt' hroom] at hnat
  omega

/-- A new name gets the next number. -/
theorem Numbered.binds (h : Numbered s.intern) (hbinds : Binds s s' name) : Numbered s'.intern
  := by
  have hlen : s'.intern.bindings.length = s.intern.bindings.length + 1 := by
    rw [hbinds.bindings, List.length_append]
    rfl
  have hroom := h.room
  have hlast : s.intern.bindings.length + 1 ≠ 2 ^ 32 - 1 := by
    intro heq
    apply hbinds.fresh.room
    rw [h.nextId, heq]
    rfl
  refine ⟨?_, ?_, ?_, ?_⟩
  · rw [hlen, List.range_succ, List.map_append, ← h.ids, hbinds.bindings, List.map_append, h.nextId]
    rfl
  · rw [hlen, hbinds.nextId, h.nextId]
    exact (UInt32.ofNat_add _ 1).symm
  · omega
  · rw [hbinds.bindings, List.map_append]
    apply List.nodup_append.mpr
    refine ⟨h.names, List.nodup_singleton _, ?_⟩
    intro a ha b hb
    obtain rfl := List.mem_singleton.mp hb
    rintro rfl
    obtain ⟨⟨_, id⟩, hmem, rfl⟩ := List.mem_map.mp ha
    exact hbinds.fresh.unbound id hmem

/-- An event about nothing. -/
theorem speaks_of_about (hev : e.ev.Encodable)
    (hcls : e.cls = .critical ↔ e.ev.kind.isCritical = true) (hkind : e.ev.kind ≠ .nameIntern)
    (habout : e.ev.about = none) :
  Speaks s c e
  := by
  refine ⟨hev, hcls, hkind, ?_, ?_⟩
  · intro hquery
    rcases e with ⟨flags, ev, cls⟩
    cases ev with
    | injectQuery iseq nameId => cases habout
    | _ => cases hquery
  · intro id hid
    rw [habout] at hid
    cases hid

/-- An event about the name of the call. -/
theorem speaks_of_mem (hev : e.ev.Encodable)
    (hcls : e.cls = .critical ↔ e.ev.kind.isCritical = true) (hkind : e.ev.kind ≠ .nameIntern)
    (hquery : e.ev.kind = .injectQuery → c.Injects) (habout : e.ev.about = some id)
    (hname : c.name = some name) (hmem : (name, id) ∈ s.intern.bindings) :
  Speaks s c e
  := by
  refine ⟨hev, hcls, hkind, hquery, ?_⟩
  intro id' hid
  rw [habout, Option.some.injEq] at hid
  subst hid
  exact ⟨name, hname, hmem⟩

/-- Names take no sequence numbers. -/
theorem nextIseq_internName (s : SdkState) (name : Bytes) (flags : UInt8) :
  (s.internName name flags).1.nextIseq = s.nextIseq
  := by
  rw [SdkState.internName]
  split <;> rfl

/-- Interning the name of a call; an id that it gives is bound. -/
theorem reacts_internName (s : SdkState) (flags : UInt8) (hname : c.name = some name)
    (hflags : flags = c.flags) :
  Reacts s c ((s.internName name flags).1, (s.internName name flags).2.1) ∧
    ∀ id, (s.internName name flags).2.2 = some id →
      (name, id) ∈ (s.internName name flags).1.intern.bindings
  := by
  subst hflags
  rcases s.internName_cases name c.flags with h | ⟨id, h, hmem⟩ | ⟨s', h, hfresh, hbindings, hnext⟩
  · rw [h]
    exact ⟨.same (.refl s) rfl (by simp), by simp⟩
  · rw [h]
    refine ⟨.same (.refl s) rfl (by simp), ?_⟩
    intro id' hid
    rw [Option.some.injEq] at hid
    subst hid
    exact hmem
  · rw [h]
    have hiseq := nextIseq_internName s name c.flags
    rw [h] at hiseq
    refine ⟨.new hname ⟨hfresh, hbindings, hnext⟩ hiseq (by simp), ?_⟩
    intro id hid
    rw [Option.some.injEq] at hid
    subst hid
    rw [hbindings]
    simp

theorem Reacts.grows {next : SdkState × List Emission} (h : Reacts s c next) : Grows s c next.1
  := by
  cases h with
  | same hsame hiseq _ => exact ⟨Or.inl hsame, fun _ => hiseq⟩
  | new hname hbinds hiseq _ => exact ⟨Or.inr ⟨_, hname, hbinds⟩, fun _ => hiseq⟩

theorem grows_refl (s : SdkState) (c : Call) : Grows s c s
  := ⟨Or.inl (.refl s), fun _ => rfl⟩

/-- Counting an inject query leaves the names alone. -/
theorem sameNames_countInject (s : SdkState) : s.SameNames s.countInject := ⟨rfl, rfl⟩

/-- An inject point counts the query before it interns its name, and takes a sequence number
afterwards. -/
theorem grows_injectPoint (hinjects : c.Injects) (h : Grows s.countInject c s')
    (hsame : s'.SameNames s'') :
  Grows s c s''
  := by
  refine ⟨?_, fun hnot => absurd hinjects hnot⟩
  rcases h.names with hnames | ⟨name, hname, hbinds⟩
  · exact Or.inl (((sameNames_countInject s).trans hnames).trans hsame)
  · exact Or.inr ⟨name, hname, Binds.then ⟨⟨hbinds.fresh.valid, hbinds.fresh.unbound,
      hbinds.fresh.room⟩, hbinds.bindings, hbinds.nextId⟩ hsame⟩

/-- More events behind the others. -/
theorem Reacts.append (h : Reacts s c (s', es)) (hsame : s'.SameNames s'')
    (hiseq : s''.nextIseq = s'.nextIseq) {es' : List Emission} (hes' : ∀ e ∈ es', Speaks s'' c e) :
  Reacts s c (s'', es ++ es')
  := by
  have hmore : ∀ es : List Emission, (∀ e ∈ es, Speaks s' c e) → ∀ e ∈ es ++ es', Speaks s'' c e := by
    intro es hes e he
    rcases List.mem_append.mp he with he | he
    · exact (hes e he).congr hsame
    · exact hes' e he
  cases h with
  | same hnames hiseq' hes => exact .same (hnames.trans hsame) (hiseq.trans hiseq') (hmore _ hes)
  | new hname hbinds hiseq' hes =>
      exact .new hname (hbinds.then hsame) (hiseq.trans hiseq') (hmore _ hes)

/-! ### The calls that only change the state -/

theorem reacts_assertAlways (s : SdkState) (cond : Bool) (name details : Bytes) :
  Reacts s (.assertAlways cond name details) (s.assertAlways cond name details)
  := by
  have hname : (Call.assertAlways cond name details).name = some name := rfl
  obtain ⟨hreacts, hbound⟩ := reacts_internName s 0 hname rfl
  rw [SdkState.assertAlways]
  rcases hinterned : s.internName name 0 with ⟨s', es, _ | id⟩ <;> rw [hinterned] at hreacts hbound
  · exact hreacts
  · dsimp only at hreacts hbound ⊢
    cases cond with
    | true =>
        rw [if_pos rfl]
        have hiseq : (s'.assertPassed id).nextIseq = s'.nextIseq := by
          rw [SdkState.assertPassed]
          split <;> rfl
        have hpassed := hreacts.append (s'.sameNames_assertPassed id) hiseq
          (fun e (he : e ∈ []) => absurd he List.not_mem_nil)
        rw [List.append_nil] at hpassed
        exact hpassed
    | false =>
        rw [if_neg Bool.false_ne_true]
        have hsame := s'.sameNames_assertFailed id details
        have hiseq : (s'.assertFailed id details).1.nextIseq = s'.nextIseq := by
          rw [SdkState.assertFailed]
          split <;> rfl
        apply hreacts.append hsame hiseq
        intro e he
        obtain ⟨n, text, rfl⟩ := s'.assertFailed_emits id details e he
        refine @speaks_of_mem _ _ _ _ id trivial (by simp [EventPayload.kind, EventKind.isCritical])
          (by simp [EventPayload.kind]) (by simp [EventPayload.kind]) rfl hname ?_
        rw [hsame.bindings]
        exact hbound id rfl

theorem reacts_expectReachable (s : SdkState) (name : Bytes) :
  Reacts s (.expectReachable name) (s.expectReachable name)
  := by
  have hname : (Call.expectReachable name).name = some name := rfl
  obtain ⟨hreacts, hbound⟩ := reacts_internName s 0 hname rfl
  rw [SdkState.expectReachable]
  rcases hinterned : s.internName name 0 with ⟨s', es, _ | id⟩ <;> rw [hinterned] at hreacts hbound
  · exact hreacts
  · have hsame := s'.sameNames_reached id
    have hiseq : (s'.reached id).1.nextIseq = s'.nextIseq := by
      rw [SdkState.reached]
      split
      · dsimp only
        split <;> rfl
      · rfl
    apply hreacts.append hsame hiseq
    intro e he
    rw [s'.reached_emits id e he]
    refine @speaks_of_mem _ _ _ _ id trivial (by simp [EventPayload.kind, EventKind.isCritical])
      (by simp [EventPayload.kind]) (by simp [EventPayload.kind]) rfl hname ?_
    rw [hsame.bindings]
    exact hbound id rfl

theorem reacts_declareReachable (s : SdkState) (name : Bytes) :
  Reacts s (.declareReachable name) (s.declareReachable name)
  := (reacts_internName s flagReachableDecl (c := .declareReachable name) rfl rfl).1

theorem reacts_coverageBeacon (s : SdkState) (id : UInt32) :
  Reacts s (.coverageBeacon id) (s.coverageBeacon id)
  := by
  refine .same ⟨rfl, rfl⟩ rfl ?_
  intro e he
  split at he
  · rw [List.mem_singleton.mp he]
    exact speaks_of_about trivial (by simp [EventPayload.kind, EventKind.isCritical])
      (by simp [EventPayload.kind]) rfl
  · cases he

theorem reacts_frameMark (s : SdkState) : Reacts s .frameMark s.frameMark
  := by
  refine .same ⟨rfl, rfl⟩ rfl ?_
  intro e he
  rw [List.mem_singleton.mp he]
  exact speaks_of_about trivial (by simp [EventPayload.kind, EventKind.isCritical])
    (by simp [EventPayload.kind]) rfl

theorem reacts_logLine (s : SdkState) (level : LogLevel) (msg : Bytes) :
  Reacts s (.logLine level msg) (s.logLine level msg)
  := by
  refine .same ⟨rfl, rfl⟩ rfl ?_
  intro e he
  rw [List.mem_singleton.mp he]
  exact speaks_of_about trivial (by simp [EventPayload.kind, EventKind.isCritical])
    (by simp [EventPayload.kind]) rfl

end Reacts

/-! ### Conditions that every call keeps -/

/-- A condition that survives the steps of a call: `I s` says, among other things, that the state of
the SDK is `s`.  Steps outside of the SDK keep the condition, and so does an event that the call may
hand to ring W; a name that is bound and announced leads to it again. -/
structure Walks {σ : Type} (P : Platform σ) (c : Call) (I : SdkState → σ → Prop) : Prop where
  state : ∀ {s x}, I s x → P.state.get x = s
  turn : ∀ {s s' x}, I s x → s.SameNames s' → I s' (P.state.set x s')
  announce : ∀ {s s' x name}, I s x → c.name = some name → Binds s s' name →
    I s' ((P.emitWEvent (announcement s c name)).run (P.state.set x s')).1
  emit : ∀ {s x e}, I s x → Speaks s c e → I s ((P.emitWEvent e).run x).1
  doorbellW : ∀ {s x}, I s x → I s (P.doorbellW.run x).1
  detcallOut : ∀ {s x} value, c.Injects → I s x → I s ((P.detcallOut portInject value).run x).1
  detcallIn : ∀ {s x} port, I s x → I s ((P.detcallIn port).run x).1
  poll : ∀ {s x}, I s x → I s (P.pollWorkloadCtrl.run x).1
  mlock : ∀ {s x} ptr len, I s x → I s ((P.mlock ptr len).run x).1
  transport : ∀ {s req n}, Asks s c req →
    ((encodeRequest req).run (Bytes.zeros maxDatagram)).2 = .ok n →
    Exec.Triple (I s)
      (P.transport (((encodeRequest req).run (Bytes.zeros maxDatagram)).1.take n))
      (fun reply x => I s x ∧ ∀ r, decodeReply reply = .ok r → Answers req r) (I s)

/-- What holds behind a call that may have bound its name. -/
def Grown {σ : Type} (c : Call) (I : SdkState → σ → Prop) (s : SdkState) (x : σ) : Prop :=
  ∃ s', Grows s c s' ∧ I s' x

section Walks

variable {σ ε : Type} {P : Platform σ} {c : Call} {I : SdkState → σ → Prop} {s : SdkState}
  {e : Emission}

namespace Walks

theorem emitWEvent (hI : Walks P c I) (he : Speaks s c e) :
  Exec.Triple (I s) (P.emitWEvent e) (fun _ => I s) (I s)
  := Exec.triple_of_always fun _ h => hI.emit h he

theorem emitWEventWithDoorbell (hI : Walks P c I) (he : Speaks s c e) :
  Exec.Triple (I s) (P.emitWEventWithDoorbell e) (fun _ => I s) (I s)
  := (hI.emitWEvent he).bind fun _ => Exec.triple_of_always fun _ h => hI.doorbellW h

theorem emitEach (hI : Walks P c I) {es : List Emission} (hes : ∀ e ∈ es, Speaks s c e) :
  Exec.Triple (I s) (P.emitEach es : Exec σ ε Unit) (fun _ => I s) (I s)
  := by
  induction es with
  | nil => exact Exec.triple_pure fun _ h => h
  | cons e es ih =>
      apply (hI.emitWEvent (hes e List.mem_cons_self)).attempt.bind
      intro r
      apply (ih fun e he => hes e (List.mem_cons_of_mem _ he)).pre
      cases r with
      | ok _ => exact fun _ h => h
      | error _ => exact fun _ h => h

/-- A new state, and the events that go with it. -/
theorem reacts (hI : Walks P c I) {next : SdkState × List Emission} (hreacts : Reacts s c next) :
  Exec.Triple (fun x => ∃ y, I s y ∧ x = P.state.set y next.1)
    (P.emitEach next.2 : Exec σ ε Unit) (fun _ => I next.1) (I next.1)
  := by
  cases hreacts with
  | same hsame _ hes =>
      apply (hI.emitEach hes).pre
      rintro _ ⟨y, hy, rfl⟩
      exact hI.turn hy hsame
  | @new s' es name hname hbinds _ hes =>
      have hannounce : Exec.Triple (fun x => ∃ y, I s y ∧ x = P.state.set y s')
          (P.emitWEvent (announcement s c name)) (fun _ => I s') (I s') := by
        apply Exec.triple_of_always
        rintro _ ⟨y, hy, rfl⟩
        exact hI.announce hy hname hbinds
      apply hannounce.attempt.bind
      intro r
      apply (hI.emitEach hes).pre
      cases r with
      | ok _ => exact fun _ h => h
      | error _ => exact fun _ h => h

/-- A call that changes the state and emits events. -/
theorem react (hI : Walks P c I) {f : SdkState → SdkState × List Emission}
    (hreacts : Reacts s c (f s)) :
  Exec.Triple (I s) (P.react f : Exec σ ε Unit) (fun _ => I (f s).1) (I (f s).1)
  := by
  apply Exec.triple_forall
  intro x hx
  have hnext : f (P.state.get x) = f s := by rw [hI.state hx]
  apply (Exec.triple_get (R := fun y z => z = x ∧ y = x) fun _ h => ⟨h, h⟩).bind
  intro y
  apply Exec.triple_forall
  rintro _ ⟨rfl, rfl⟩
  dsimp only
  rw [hnext]
  refine (Exec.triple_modify (R := fun _ z => ∃ w, I s w ∧ z = P.state.set w (f s).1) ?_).bind
    fun _ => hI.reacts hreacts
  rintro _ rfl
  exact ⟨_, hx, rfl⟩

/-- Interning the name of the call. -/
theorem internName (hI : Walks P c I) {name : Bytes} (flags : UInt8) (hname : c.name = some name)
    (hflags : flags = c.flags) :
  Exec.Triple (I s) (P.internName name flags : Exec σ ε (Option UInt32))
    (fun r x => I (s.internName name flags).1 x ∧
      ∀ id, r = some id → (name, id) ∈ (s.internName name flags).1.intern.bindings)
    (I (s.internName name flags).1)
  := by
  obtain ⟨hreacts, hbound⟩ := reacts_internName s flags hname hflags
  apply Exec.triple_forall
  intro x hx
  have hnext : (P.state.get x).internName name flags = s.internName name flags := by
    rw [hI.state hx]
  apply (Exec.triple_get (R := fun y z => z = x ∧ y = x) fun _ h => ⟨h, h⟩).bind
  intro y
  apply Exec.triple_forall
  rintro _ ⟨rfl, rfl⟩
  dsimp only
  rw [hnext]
  refine (Exec.triple_modify
    (R := fun _ z => ∃ w, I s w ∧ z = P.state.set w (s.internName name flags).1) ?_).bind fun _ => ?_
  · rintro _ rfl
    exact ⟨_, hx, rfl⟩
  · exact (hI.reacts hreacts).bind fun _ => Exec.triple_pure fun _ h => ⟨h, hbound⟩

/-- The exchange of an inject query. -/
theorem query (hI : Walks P c I) (hinjects : c.Injects) {nameId : UInt32} (iseq : UInt32)
    (he : Speaks s c ⟨0, .injectQuery iseq nameId, .critical⟩) :
  Exec.Triple (I s) (P.query iseq nameId) (fun _ => I s) (I s)
  := by
  apply (hI.emitWEventWithDoorbell he).bind
  intro _
  apply (Exec.triple_of_always fun _ h => hI.detcallOut iseq hinjects h).bind
  intro _
  apply (Exec.triple_of_always fun _ h => hI.detcallIn portInject h).bind
  intro packed
  exact Exec.triple_pure fun _ h => h

/-- Taking a sequence number leaves the names alone. -/
theorem takeIseq (hI : Walks P c I) :
  Exec.Triple (I s) (P.takeIseq : Exec σ ε UInt32)
    (fun iseq x => iseq = s.nextIseq ∧ I { s with nextIseq := s.nextIseq + 1 } x)
    (I { s with nextIseq := s.nextIseq + 1 })
  := by
  apply Exec.triple_of_run
  intro x hx
  have hrun : (P.takeIseq : Exec σ ε UInt32).run x
      = (P.state.set x { P.state.get x with nextIseq := (P.state.get x).nextIseq + 1 },
          .ok (P.state.get x).nextIseq) := rfl
  rw [hI.state hx] at hrun
  exact ⟨_, _, hrun, rfl, hI.turn hx ⟨rfl, rfl⟩⟩

theorem injectPoint (hI : Walks P c I) (hinjects : c.Injects) {name : Bytes}
    (hname : c.name = some name) (hflags : 0 = c.flags) :
  Exec.Triple (I s) (P.injectPoint name : Exec σ ε FaultDecision)
    (fun _ => Grown c I s) (Grown c I s)
  := by
  have hgrows : ∀ {s'}, (s.countInject.internName name 0).1.SameNames s' → Grows s c s' :=
    grows_injectPoint hinjects (reacts_internName s.countInject 0 hname hflags).1.grows
  have hcount : Exec.Triple (I s)
      (Exec.modify fun x => P.state.set x (P.state.get x).countInject : Exec σ ε Unit)
      (fun _ => I s.countInject) (Grown c I s) := by
    apply Exec.triple_modify
    intro x hx
    rw [hI.state hx]
    exact hI.turn hx (sameNames_countInject s)
  rw [Platform.injectPoint]
  apply hcount.bind
  intro _
  apply ((hI.internName 0 hname hflags).conseq (fun _ h => h) (fun _ _ h => h)
    fun _ h => ⟨_, hgrows (.refl _), h⟩).bind
  rintro (_ | nameId)
  · exact Exec.triple_pure fun _ h => ⟨_, hgrows (.refl _), h.1⟩
  · apply Exec.triple_forall
    rintro x ⟨hx, hbound⟩
    have hmem := hbound nameId rfl
    have hsame : (s.countInject.internName name 0).1.SameNames
        { (s.countInject.internName name 0).1 with
          nextIseq := (s.countInject.internName name 0).1.nextIseq + 1 } := ⟨rfl, rfl⟩
    have hend : ∀ y, I { (s.countInject.internName name 0).1 with
        nextIseq := (s.countInject.internName name 0).1.nextIseq + 1 } y → Grown c I s y :=
      fun y hy => ⟨_, hgrows hsame, hy⟩
    have htake := (hI.takeIseq (ε := ε) (s := (s.countInject.internName name 0).1)).conseq
      (fun y (hy : y = x) => hy ▸ hx) (fun _ _ h => h) hend
    apply htake.bind
    rintro iseq
    apply Exec.triple_forall
    rintro y ⟨rfl, hy⟩
    have hspeaks : Speaks { (s.countInject.internName name 0).1 with
        nextIseq := (s.countInject.internName name 0).1.nextIseq + 1 } c
        ⟨0, .injectQuery (s.countInject.internName name 0).1.nextIseq nameId, .critical⟩ :=
      speaks_of_mem trivial (by simp [EventPayload.kind, EventKind.isCritical])
        (by simp [EventPayload.kind]) (fun _ => hinjects) rfl hname hmem
    have hquery := ((hI.query hinjects _ hspeaks).pre (fun z (hz : z = y) => hz ▸ hy))
    apply (hquery.attempt.conseq (fun _ h => h) (fun _ _ h => h) hend).bind
    rintro (_ | decision)
    · exact Exec.triple_pure hend
    · exact Exec.triple_pure hend

theorem validateRegion (name : Bytes) (ptr len : UInt64) :
  Exec.Triple (I s) (Platform.validateRegion name ptr len) (fun _ => I s) (I s)
  := by
  refine (Exec.triple_failIf (R := fun _ => I s) (fun _ h _ => h) fun _ h _ => h).bind fun _ => ?_
  exact Exec.triple_failIf (fun _ h _ => h) fun _ h _ => h

/-- A request to the agent. -/
theorem callAgent (hI : Walks P c I) {req : Request} (hreq : Asks s c req) :
  Exec.Triple (I s) (P.callAgent req) (fun reply x => I s x ∧ Answers req reply) (I s)
  := by
  rw [Platform.callAgent]
  refine (Exec.triple_lift (Q := fun n x => I s x ∧
    ((encodeRequest req).run (Bytes.zeros maxDatagram)).2 = .ok n) ?_ fun _ h => h).bind fun n => ?_
  · intro n x hn hx
    refine ⟨hx, ?_⟩
    exact Res.mapErr_eq_ok.mp hn
  · apply Exec.triple_forall
    rintro x ⟨hx, hn⟩
    have htransport := (hI.transport hreq hn).pre (fun y (hy : y = x) => hy ▸ hx)
    apply htransport.mapErr.bind
    intro reply
    apply Exec.triple_lift
    · intro r y hr hy
      exact ⟨hy.1, hy.2 r (Res.mapErr_eq_ok.mp hr)⟩
    · exact fun y hy => hy.1

theorem registerRegion (hI : Walks P c I) {name : Bytes} (layoutVersion : UInt32)
    (ptr len : UInt64) (flags : UInt32) (hname : c.name = some name) (hflags : 0 = c.flags) :
  Exec.Triple (I s) (P.registerRegion name layoutVersion ptr len flags)
    (fun _ => Grown c I s) (Grown c I s)
  := by
  have hgrows := (reacts_internName s 0 hname hflags).1.grows
  have hstart : ∀ x, I s x → Grown c I s x := fun x hx => ⟨s, grows_refl s c, hx⟩
  have hend : ∀ x, I (s.internName name 0).1 x → Grown c I s x := fun x hx => ⟨_, hgrows, hx⟩
  rw [Platform.registerRegion]
  apply ((validateRegion name ptr len).conseq (fun _ h => h) (fun _ _ h => h) hstart).bind
  intro _
  have hmlock : Exec.Triple (I s) (P.mlock ptr len) (fun _ => I s) (I s) :=
    Exec.triple_of_always fun _ h => hI.mlock ptr len h
  apply (hmlock.mapErr.conseq (fun _ h => h) (fun _ _ h => h) hstart).bind
  intro _
  apply ((hI.internName 0 hname hflags).conseq (fun _ h => h) (fun _ _ h => h) hend).bind
  rintro (_ | nameId)
  · exact Exec.triple_fail fun _ h => hend _ h.1
  · apply Exec.triple_forall
    rintro x ⟨hx, hbound⟩
    have hmem := hbound nameId rfl
    have hasks : Asks (s.internName name 0).1 c
        (.register flags layoutVersion nameId ptr len name) := by
      rintro _ _ ⟨rfl, rfl⟩
      exact ⟨hname, hmem⟩
    have hcall := (hI.callAgent hasks).conseq
      (fun y (hy : y = x) => hy ▸ hx) (fun _ _ h => h) hend
    apply hcall.bind
    intro reply
    refine (Exec.triple_failIf (R := fun _ y => I (s.internName name 0).1 y ∧
      reply.nameId = nameId) ?_ fun _ h _ => hend _ h.1).bind fun _ => ?_
    · rintro y ⟨hy, hanswers⟩ hok
      exact ⟨hy, hanswers (not_not.mp hok) _ _ rfl⟩
    · refine (Exec.triple_failIf (R := fun _ y => I (s.internName name 0).1 y ∧
        reply.nameId = nameId) (fun _ h _ => h) fun _ h _ => hend _ h.1).bind fun _ => ?_
      apply Exec.triple_forall
      rintro y ⟨hy, hid⟩
      have hspeaks : Speaks (s.internName name 0).1 c ⟨0, .regionRegister
          { regionId := reply.regionId
            nameId := reply.nameId
            layoutVersion
            manifestGeneration := reply.manifestGeneration.toUInt32 }, .critical⟩ :=
        speaks_of_mem trivial (by simp [EventPayload.kind, EventKind.isCritical])
          (by simp [EventPayload.kind]) (by simp [EventPayload.kind]) rfl hname (hid ▸ hmem)
      have hemit := (hI.emitWEventWithDoorbell hspeaks).conseq 
        (fun z (hz : z = y) => hz ▸ hy) (fun _ _ h => h) hend
      apply hemit.mapErr.bind
      intro _
      exact Exec.triple_pure hend

/-- The loop of a parked workload. -/
theorem awaitResume (hI : Walks P c I) (token : UInt64) (n : Nat) :
  Exec.Triple (I s) (P.awaitResume token n : Exec σ ε Unit) (fun _ => I s) (I s)
  := by
  have hpoll : Exec.Triple (I s) P.pollWorkloadCtrl (fun _ => I s) (I s) :=
    Exec.triple_of_always fun _ h => hI.poll h
  induction n with
  | zero => exact Exec.triple_panic fun _ h => h
  | succ n ih =>
      rw [Platform.awaitResume]
      apply hpoll.attempt.bind
      rintro (_ | _ | token' | token')
      · exact Exec.triple_pure fun _ h => h
      · exact ih
      · exact ih
      · dsimp only
        split
        · exact Exec.triple_pure fun _ h => h
        · exact ih

theorem speaks_quiesceReady (s : SdkState) (c : Call) (token : UInt64) :
  Speaks s c ⟨0, .quiesceReady token, .critical⟩
  := speaks_of_about trivial (by simp [EventPayload.kind, EventKind.isCritical])
    (by simp [EventPayload.kind]) rfl

theorem parkUntilResume (hI : Walks P c I) (token : UInt64) :
  Exec.Triple (I s) (P.parkUntilResume token : Exec σ ε Unit) (fun _ => I s) (I s)
  := by
  rw [Platform.parkUntilResume]
  apply (hI.emitWEventWithDoorbell (speaks_quiesceReady s c token)).attempt.bind
  rintro (_ | _)
  · exact Exec.triple_pure fun _ h => h
  · apply (Exec.triple_get (R := fun _ => I s) fun _ h => h).bind
    intro x
    exact hI.awaitResume token _

theorem checkLoop (hI : Walks P c I) (n : Nat) :
  Exec.Triple (I s) (P.checkLoop n : Exec σ ε Unit) (fun _ => I s) (I s)
  := by
  have hpoll : Exec.Triple (I s) P.pollWorkloadCtrl (fun _ => I s) (I s) :=
    Exec.triple_of_always fun _ h => hI.poll h
  induction n with
  | zero => exact Exec.triple_panic fun _ h => h
  | succ n ih =>
      rw [Platform.checkLoop]
      apply hpoll.attempt.bind
      rintro (_ | _ | token | token)
      · exact Exec.triple_pure fun _ h => h
      · exact Exec.triple_pure fun _ h => h
      · exact (hI.parkUntilResume token).bind fun _ => ih
      · exact ih

/-- **Every call keeps the condition.**  A call binds at most the name that it was given. -/
theorem call (hI : Walks P c I) :
  Exec.Triple (I s) (P.call c) (fun _ => Grown c I s) (Grown c I s)
  := by
  have hreact : ∀ f : SdkState → SdkState × List Emission, Reacts s c (f s) →
      Exec.Triple (I s) (do
          P.react f
          pure Returned.done : Exec σ Empty Returned) (fun _ => Grown c I s) (Grown c I s) := by
    intro f hreacts
    have hend : ∀ x, I (f s).1 x → Grown c I s x := fun x hx => ⟨_, hreacts.grows, hx⟩
    apply ((hI.react hreacts).conseq (fun _ h => h) (fun _ _ h => h) hend).bind
    intro _
    exact Exec.triple_pure hend
  have hstart : ∀ x, I s x → Grown c I s x := fun x hx => ⟨s, grows_refl s c, hx⟩
  cases c with
  | assertAlways cond name details => exact hreact _ (reacts_assertAlways s cond name details)
  | expectReachable name => exact hreact _ (reacts_expectReachable s name)
  | declareReachable name => exact hreact _ (reacts_declareReachable s name)
  | coverageBeacon id => exact hreact _ (reacts_coverageBeacon s id)
  | frameMark => exact hreact _ (reacts_frameMark s)
  | logLine level msg => exact hreact _ (reacts_logLine s level msg)
  | injectPoint name =>
      apply (hI.injectPoint ⟨name, rfl⟩ rfl rfl).bind
      intro decision
      exact Exec.triple_pure fun _ h => h
  | quiesceCheck =>
      rw [Platform.call, Platform.quiesceCheck]
      have hloop : Exec.Triple (I s) (do
          let x ← Exec.get
          P.checkLoop (P.fuel x) : Exec σ Empty Unit) (fun _ => I s) (I s) := by
        apply (Exec.triple_get (R := fun _ => I s) fun _ h => h).bind
        intro x
        exact hI.checkLoop _
      apply (hloop.conseq (fun _ h => h) (fun _ _ h => h) hstart).bind
      intro _
      exact Exec.triple_pure hstart
  | registerRegion name layoutVersion ptr len flags =>
      apply (hI.registerRegion layoutVersion ptr len flags rfl rfl).attempt.bind
      rintro (_ | _)
      · exact Exec.triple_pure fun _ h => h
      · exact Exec.triple_pure fun _ h => h
  | unregisterRegion regionId =>
      -- a request that is not written out is not evaluated
      obtain ⟨req, hreq⟩ : ∃ req, req = Request.unregister regionId := ⟨_, rfl⟩
      have hasks : Asks s (.unregisterRegion regionId) req := by
        rw [hreq]
        rintro _ _ ⟨⟩
      have hcall : Exec.Triple (I s) (P.callAgent req) (fun _ => I s) (I s) :=
        (hI.callAgent hasks).post fun _ _ h => h.1
      rw [Platform.call, ← hreq]
      apply (hcall.attempt.conseq (fun _ h => h) (fun _ _ h => h) hstart).bind
      rintro (_ | _)
      · exact Exec.triple_pure hstart
      · exact Exec.triple_pure hstart

end Walks

end Walks

end Sdk
