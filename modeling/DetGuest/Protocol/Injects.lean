import DetGuest.Protocol.Names

/-!
# Answers to inject points

An inject point publishes its query on ring W and writes its sequence number to a port; the host
drains the query, asks the fault plan and leaves the answer to be read.  Over a whole run each inject
point returns what the plan decided about it, and no query is left over.
-/

namespace Wire

/-! ### Packed decisions -/

/-- A decision whose kind is in the range of its class, with an argument that fits. -/
def FaultDecision.InRange : FaultDecision → Prop
  | .proceed => True
  | .platform kind arg => 1 ≤ kind ∧ kind ≤ 63 ∧ arg ≤ faultArgMax
  | .workload kind arg => 64 ≤ kind ∧ arg ≤ faultArgMax

/-- The kind is in the low byte. -/
theorem low_packKind (kind : UInt8) (arg : UInt32) :
  (packKind kind arg &&& 0xFF).toUInt8 = kind
  := by
  have hones : ∀ (i : Nat) (hi : i < 8), (255#8)[i] = true := by decide
  apply UInt8.eq_of_toBitVec_eq
  ext i hi
  rw [packKind]
  simp [hones i hi]

/-- The argument is above it. -/
theorem high_packKind (kind : UInt8) {arg : UInt32} (harg : arg ≤ faultArgMax) :
  packKind kind arg >>> 8 = arg
  := by
  have hmask : ∀ i < 32, faultArgMax.toBitVec.getLsbD i = decide (i < 24) := by decide
  have hlt : arg.toNat < 2 ^ 24 := Nat.lt_succ_of_le (UInt32.le_iff_toNat_le.mp harg)
  apply UInt32.eq_of_toBitVec_eq
  ext i hi
  have hbit : arg.toBitVec[i] = (decide (i < 24) && arg.toNat.testBit i) := by
    by_cases hlow : i < 24
    · rw [decide_eq_true hlow, Bool.true_and]
      rfl
    · rw [decide_eq_false hlow, Bool.false_and]
      apply Nat.testBit_lt_two_pow
      exact Nat.lt_of_lt_of_le hlt (Nat.pow_le_pow_right (by decide) (Nat.le_of_not_lt hlow))
  rw [packKind]
  by_cases hlow : i < 24
  · have hroom : 8 + i < 32 := Nat.add_lt_add_left hlow 8
    simp [hmask i hi, hbit, hlow, hroom]
  · simp [hmask i hi, hbit, hlow]

/-- A decision in its range survives the port. -/
theorem unpack_pack {ε : Type} (dbg : Bool) {d : FaultDecision} (h : d.InRange) :
  ∃ value, (d.pack dbg : Res ε UInt32) = .ok value ∧ FaultDecision.unpack value = d
  := by
  cases d with
  | proceed => exact ⟨0, rfl, rfl⟩
  | platform kind arg =>
      obtain ⟨hpos, hmax, harg⟩ := h
      have hkind : kind ≠ 0 := by
        rintro rfl
        exact absurd hpos (by decide)
      refine ⟨packKind kind arg, ?_, ?_⟩
      · rw [FaultDecision.pack, Res.debugAssert_of ⟨hpos, hmax⟩, Res.debugAssert_of harg]
        rfl
      · rw [FaultDecision.unpack, low_packKind, high_packKind kind harg, if_neg hkind, if_pos hmax]
  | workload kind arg =>
      obtain ⟨hmin, harg⟩ := h
      have hmax : ¬ kind ≤ 63 := by
        intro hle
        exact absurd (UInt8.le_trans hmin hle) (by decide)
      have hkind : kind ≠ 0 := by
        rintro rfl
        exact absurd hmin (by decide)
      refine ⟨packKind kind arg, ?_, ?_⟩
      · rw [FaultDecision.pack, Res.debugAssert_of hmin, Res.debugAssert_of harg]
        rfl
      · rw [FaultDecision.unpack, low_packKind, high_packKind kind harg, if_neg hkind, if_neg hmax]

end Wire

namespace Host

open Wire

/-! ### Queries in the rings -/

/-- The name that a payload asks for, if it is a query with the sequence number. -/
def OwnedPayload.query (iseq : UInt32) : OwnedPayload → Option UInt32
  | .injectQuery i nameId => if i = iseq then some nameId else none
  | _ => none

/-- The last query depends on the payloads. -/
theorem lastQuery_eq (iseq : UInt32) (recs : List Bytes) :
  lastQuery iseq recs
    = (recs.filterMap payloadOf).foldr (fun payload q => q.or (payload.query iseq)) none
  := by
  induction recs with
  | nil => rfl
  | cons rec recs ih =>
      rw [lastQuery, ih]
      cases hpay : payloadOf rec with
      | none => rw [List.filterMap_cons_none hpay, Option.or_none]
      | some payload =>
          rw [List.filterMap_cons_some hpay, List.foldr_cons]
          cases payload <;> rfl

theorem lastQuery_append (iseq : UInt32) (xs ys : List Bytes) :
  lastQuery iseq (xs ++ ys) = (lastQuery iseq ys).or (lastQuery iseq xs)
  := by
  induction xs with
  | nil => exact Option.or_none.symm
  | cons rec recs ih => rw [List.cons_append, lastQuery, ih, lastQuery, Option.or_assoc]

end Host

namespace Protocol

open Wire Host Sdk

variable {π τ ε : Type}

/-! ### Queries that wait -/

/-- The name that the host will ask its plan about under a sequence number, behind a drain. -/
def asked (w : World π τ) (c : Contents) (iseq : UInt32) : Option UInt32 :=
  (lastQuery iseq (c.events .A ++ c.events .W)).or w.events.host.ch.pendingInjects[iseq]?

/-- The state of the plan, the number of answers without a query, and the queries that wait. -/
structure Waits (p : π) (unmatched : Nat) (q : UInt32 → Option UInt32) (w : World π τ)
    (c : Contents) : Prop where
  plan : w.plan = p
  unmatched : w.events.host.ch.unmatchedInjects = unmatched
  asked : ∀ iseq, asked w c iseq = q iseq

/-- All detcalls that are left make the host drain the rings. -/
def Draining (w : World π τ) (_ : Contents) : Prop := ∀ b ∈ w.bells, b.drains = true

/-- The decisions of a plan fit the port. -/
def Packable (plan : FaultPlan π) : Prop :=
  ∀ p iseq nameId name, (plan.decide p iseq nameId name).2.InRange

section Waits

variable {S : Setting π τ} {call : Call} {p : π} {unmatched : Nat} {q : UInt32 → Option UInt32}
  {w : World π τ} {c : Contents} {g : GuestRing} {new : List Bytes} {vnanos : UInt64}
  {flags : UInt8} {ev : EventPayload}

/-- The query in the records of an event. -/
theorem lastQuery_eventRecs (h : Holds S.ch w.events c) (hev : ev.Encodable)
    (hnew : new = eventRecs (ringOf S.ch g.id) (w.events.mem.u32 (ringOf S.ch g.id).prod)
      (w.events.nextSeq g) vnanos flags ev) (iseq : UInt32) :
  lastQuery iseq new = (toOwned (eventFlags flags ev) ev.clip).bind (OwnedPayload.query iseq)
  := by
  rw [lastQuery_eq, payloads_eventRecs h hev hnew]
  cases toOwned (eventFlags flags ev) ev.clip with
  | none => rfl
  | some payload => exact Option.none_or

/-- The queries that wait behind a publication. -/
theorem asked_push (w w' : World π τ) (hch : w'.events.host.ch.pendingInjects
      = w.events.host.ch.pendingInjects) {iseq : UInt32} {last : Option UInt32}
    (hlast : lastQuery iseq new = last) (hring : last = none ∨ g = .W) :
  asked w' (c.push g new) iseq = last.or (asked w c iseq)
  := by
  rw [asked, asked, hch]
  cases g with
  | A =>
      obtain rfl : last = none := hring.resolve_right (by decide)
      rw [Contents.push_self, Contents.push_of_ne c (by decide), lastQuery_append,
        lastQuery_append, lastQuery_append, hlast, Option.none_or, Option.none_or]
  | W =>
      rw [Contents.push_self, Contents.push_of_ne c (by decide), lastQuery_append,
        lastQuery_append, lastQuery_append, hlast, Option.or_assoc, Option.or_assoc, Option.or_assoc]

/-- Calls that do not ask leave the plan and the queries alone. -/
theorem rides_waits (hquiet : ¬ call.Injects) :
  Rides S call (Waits p unmatched q)
  := by
  constructor
  · intro w w' c c' m h hevents hplan _ hcontents
    refine ⟨hplan.trans h.plan, ?_, ?_⟩
    · rw [hevents]
      exact h.unmatched
    · intro iseq
      rw [← h.asked iseq, asked, asked, hevents, hcontents]
      rfl
  · intro w w' c h' h hevents hfold hplan _
    refine ⟨hplan.trans h.plan, ?_, ?_⟩
    · rw [hevents]
      dsimp only
      rw [hfold]
      exact (foldRecs_place _ _).unmatchedInjects.trans h.unmatched
    · intro iseq
      rw [← h.asked iseq, asked, asked, hevents]
      dsimp only
      rw [hfold]
      exact pendingInjects_foldl _ _ iseq
  · intro w w' c g p' new vnanos flags ev h hholds hev hnew hinject hevents hplan _
    refine ⟨hplan.trans h.plan, ?_, ?_⟩
    · rw [hevents]
      exact h.unmatched
    · intro iseq
      have hnone : lastQuery iseq new = none := by
        rw [lastQuery_eventRecs hholds hev hnew]
        cases ev with
        | injectQuery i nameId => exact absurd (hinject rfl) hquiet
        | _ => rfl
      have hsame : w'.events.host.ch.pendingInjects = w.events.host.ch.pendingInjects := by
        rw [hevents]
        rfl
      rw [asked_push w w' hsame hnone (Or.inl rfl), Option.none_or, h.asked iseq]
  · exact fun p iseq ops hinjects => absurd hinjects hquiet

theorem rides_draining (hquiet : ¬ call.Injects) : Rides S call Draining
  := by
  constructor
  · exact fun _ h _ _ hbells _ b hb => h b (hbells.subset hb)
  · exact fun _ h _ _ _ hbells b hb => h b (hbells ▸ hb)
  · exact fun h _ _ _ _ _ _ hbells b hb => h b (hbells ▸ hb)
  · exact fun p iseq ops hinjects => absurd hinjects hquiet

/-- Two conditions at once. -/
theorem Rides.and {X Y : World π τ → Contents → Prop} (hX : Rides S call X) (hY : Rides S call Y) :
  Rides S call fun w c => X w c ∧ Y w c
  := by
  constructor
  · exact fun m h he hp hb hc => ⟨hX.quiet m h.1 he hp hb hc, hY.quiet m h.2 he hp hb hc⟩
  · exact fun h' h he hf hp hb => ⟨hX.drain h' h.1 he hf hp hb, hY.drain h' h.2 he hf hp hb⟩
  · exact fun h hh he hn hq hs hp hb =>
      ⟨hX.publish h.1 hh he hn hq hs hp hb, hY.publish h.2 hh he hn hq hs hp hb⟩
  · exact fun p iseq ops hi h => ⟨hX.answer p iseq ops hi h.1, hY.answer p iseq ops hi h.2⟩

end Waits

/-! ### The exchange of a query -/

section Exchange

variable {S : Setting π τ} {redefs : Nat} {call : Call} {D : UInt32 → Prop}
  {T : List (Bytes × UInt32)} {s : SdkState} {p : π} {unmatched : Nat} {w : World π τ}
  {c : Contents} {I : World π τ → Contents → Prop}

/-- A detcall that succeeds. -/
theorem run_detcall_ok (hI : Stable S I) (hch : Canonical S.ch) (h : I w c)
    (hbells : ∀ b ∈ w.bells, b.answers = true) :
  ∃ w' c', S.detcall.run w = (w', .ok ()) ∧ I w' c' ∧
    (w.nextBell.drains = true → c'.events = fun _ => [])
  := by
  obtain ⟨w', c', hrun, h', _, _, hrings⟩ := run_bell (ε := InitError) hI hch h
  have hanswers : w.nextBell.answers = true := by
    rw [World.nextBell]
    cases hscript : w.bells with
    | nil => rfl
    | cons b bs => exact hbells b (hscript ▸ List.mem_cons_self)
  refine ⟨w', c', ?_, h', ?_⟩
  · rw [Setting.detcall, Exec.run_bind_of_ok hrun, hanswers, Exec.run_failIf_of_not (by simp)]
  · intro hdrains
    rw [if_pos hdrains] at hrings
    exact hrings

/-- The next detcall makes the host drain the rings. -/
theorem Draining.nextBell (h : Draining w c) : w.nextBell.drains = true
  := by
  rw [World.nextBell]
  cases hscript : w.bells with
  | nil => rfl
  | cons b bs => exact h b (hscript ▸ List.mem_cons_self)

/-- The condition while a call waits for the answer to its query. -/
def Querying (S : Setting π τ) (redefs : Nat) (call : Call) (D : UInt32 → Prop)
    (T : List (Bytes × UInt32)) (s : SdkState) (p : π) (unmatched : Nat)
    (q : UInt32 → Option UInt32) : World π τ → Contents → Prop :=
  Walking S redefs call (fun w c => Waits p unmatched q w c ∧ Draining w c) D T s

/-- The query of one sequence number. -/
def single (iseq nameId : UInt32) (i : UInt32) : Option UInt32 :=
  if iseq = i then some nameId else none

/-- A query is published. -/
theorem publishes_query {name : Bytes} {nameId : UInt32} (hname : call.name = some name)
    (hmem : (name, nameId) ∈ T) (iseq : UInt32) :
  Publishes S (Querying S redefs call D T s p unmatched fun _ => none)
    (Querying S redefs call D T s p unmatched (single iseq nameId)) 0 (.injectQuery iseq nameId)
  := by
  intro w c p' vnanos new h hnew hholds
  have hev : (EventPayload.injectQuery iseq nameId).Encodable := trivial
  refine ⟨?_, ⟨⟨h.rides.1.plan, h.rides.1.unmatched, ?_⟩, h.rides.2⟩, h.sdk, h.caller⟩
  · apply h.naming.publish_plain (g := .W) hev (by simp [EventPayload.kind]) hnew hholds
    rintro _ ⟨rfl⟩
    refine ⟨name, h.caller.trans hname, ?_⟩
    rw [h.naming.announced]
    exact hmem
  · intro i
    rw [asked_push w (w.publish .W p' new) rfl
      (lastQuery_eventRecs (g := .W) h.naming.holds hev hnew i) (Or.inr rfl), h.rides.1.asked,
      Option.or_none]
    rfl

/-- When the rings are empty, the host knows the names of the SDK. -/
theorem Naming.internName (h : Naming S redefs D T w c) (hempty : c.events = fun _ => [])
    {name : Bytes} {nameId : UInt32} (hmem : (name, nameId) ∈ T) :
  w.events.host.ch.internName nameId = some (Utf8.fromUtf8Lossy name)
  := by
  rcases h.known name nameId hmem with ⟨e, he, _⟩ | ⟨rec, hrec, _⟩
  · obtain ⟨name', hmem', hname', _⟩ := h.consistent nameId e he
    rw [Channel.internName, he, Option.map_some, hname', h.once _ _ _ hmem' hmem]
  · rw [hempty] at hrec
    cases hrec

/-- **A query is answered with the decision of the plan.**  The host has the query and its name when
it answers. -/
theorem run_query (hch : Canonical S.ch) (hfits : Packable S.plan) (hquiet : ¬ call.Injects)
    {name : Bytes} {nameId : UInt32} (hname : call.name = some name) (hmem : (name, nameId) ∈ T)
    (iseq : UInt32) (h : Holding (Querying S redefs call D T s p unmatched fun _ => none) w) :
  let d := S.plan.decide p iseq nameId (some (Utf8.fromUtf8Lossy name))
  ∃ w', (S.platform.query iseq nameId).run w = (w', .ok d.2) ∧
    Holding (Querying S redefs call D T s d.1 unmatched fun _ => none) w'
  := by
  intro d
  obtain ⟨c, hc⟩ := h
  have hstable : ∀ p q, Stable S (Querying S redefs call D T s p unmatched q) := fun p q =>
    stable_walking ((rides_waits hquiet).and (rides_draining hquiet)) D T s
  -- the query is on ring W
  have htime : OnTime S w (.injectQuery iseq nameId) :=
    Or.inr (Or.inr (answered_of_all hc.naming.bells))
  obtain ⟨w₁, hrun₁, c₁, h₁⟩ := run_emitWEvent_inTime
    (e := ⟨0, .injectQuery iseq nameId, .critical⟩) (hstable p fun _ => none) hch trivial rfl
    (publishes_query hname hmem iseq) hc htime
  obtain ⟨w₂, c₂, hrun₂, h₂, _⟩ := run_detcall_ok (hstable p (single iseq nameId)) hch h₁ h₁.naming.bells
  -- the host drains the rings and answers
  obtain ⟨w₃, c₃, hrun₃, h₃, hempty⟩ :=
    run_detcall_ok (hstable p (single iseq nameId)) hch h₂ h₂.naming.bells
  have hrings : c₃.events = fun _ => [] := hempty h₂.rides.2.nextBell
  have hpending : ∀ i, w₃.events.host.ch.pendingInjects[i]? = single iseq nameId i := by
    intro i
    have hasked := h₃.rides.1.asked i
    rw [asked, hrings] at hasked
    exact hasked
  obtain ⟨value, hpack, hunpack⟩ := unpack_pack (ε := InitError) S.dbg
    (hfits p iseq nameId (some (Utf8.fromUtf8Lossy name)))
  have hdecided : decided S.plan S.dbg iseq w₃.plan w₃.events.host.ch
      = (d.1, (.ok value : Res InitError UInt32)) := by
    rw [decided, hpending, single, if_pos rfl]
    dsimp only
    rw [h₃.naming.internName hrings hmem, h₃.rides.1.plan, hpack]
  have hanswer := run_answer S.plan S.dbg iseq (Setting.responder.get w₃) hdecided
  have hfocus : (Exec.focus Setting.responder (answer S.plan S.dbg iseq)
      : Exec (World π τ) InitError UInt32).run w₃
      = (w₃.answering d.1 iseq (answerOps (.ok value : Res InitError UInt32)), .ok value) :=
    Exec.run_focus hanswer
  have hanswered : w₃.events.host.ch.answered iseq = w₃.events.host.ch.dropPendingInject iseq := by
    rw [Channel.answered, hpending, single, if_pos rfl]
  have h₄ : Querying S redefs call D T s d.1 unmatched (fun _ => none)
      (w₃.answering d.1 iseq (answerOps (.ok value : Res InitError UInt32))) c₃ := by
    apply Walking.answering h₃
    refine ⟨⟨rfl, ?_, ?_⟩, h₃.rides.2⟩
    · dsimp only [World.answering]
      rw [hanswered]
      exact h₃.rides.1.unmatched
    · intro i
      rw [asked, hrings]
      dsimp only [World.answering]
      rw [hanswered, Channel.dropPendingInject, Std.ExtTreeMap.getElem?_erase, hpending, single]
      by_cases heq : iseq = i
      · simp [heq, lastQuery]
      · simp [heq, lastQuery]
  -- the answer is read
  have h₅ := h₄.quietly ((rides_waits hquiet).and (rides_draining hquiet))
    { w₃.answering d.1 iseq (answerOps (.ok value : Res InitError UInt32)) with latch := value }
    rfl rfl rfl rfl rfl rfl
  have hlatched : Stable S fun w c =>
      Querying S redefs call D T s d.1 unmatched (fun _ => none) w c ∧ w.latch = value := by
    have hsame := hstable d.1 fun _ => none
    constructor
    · exact fun h => hsame.holds h.1
    · exact fun m vnanos agentVnanos pauses _ h hh he hb =>
        ⟨hsame.quiet m vnanos agentVnanos pauses h.1 hh he hb, h.2⟩
    · exact fun h' h hh hf => ⟨hsame.drain h' h.1 hh hf, h.2⟩
  obtain ⟨w₆, c₆, hrun₆, ⟨h₆, hlatch⟩, _⟩ := run_detcall_ok hlatched hch
    ⟨h₄.sdk ▸ h₅, rfl⟩ h₅.naming.bells
  refine ⟨w₆, ?_, c₆, h₆⟩
  have hemit : (S.platform.emitWEventWithDoorbell ⟨0, .injectQuery iseq nameId, .critical⟩).run w
      = (w₂, .ok ()) := by
    rw [Platform.emitWEventWithDoorbell, Exec.run_bind_of_ok hrun₁]
    exact hrun₂
  have hout : (S.platform.detcallOut portInject iseq).run w₂
      = ({ w₃.answering d.1 iseq (answerOps (.ok value : Res InitError UInt32)) with
          latch := value }, .ok ()) := by
    change (S.detcallOut portInject iseq).run w₂ = _
    rw [Setting.detcallOut, if_pos rfl, Exec.run_bind_of_ok hrun₃, Exec.run_bind_of_ok hfocus,
      Exec.run_modify]
  have hin : (S.platform.detcallIn portInject).run
      { w₃.answering d.1 iseq (answerOps (.ok value : Res InitError UInt32)) with latch := value }
      = (w₆, .ok value) := by
    change (S.detcallIn portInject).run _ = _
    rw [Setting.detcallIn, Exec.run_bind_of_ok hrun₆, Exec.run_bind_of_ok (Exec.run_get w₆), hlatch]
    rfl
  rw [Platform.query, Exec.run_bind_of_ok hemit, Exec.run_bind_of_ok hout,
    Exec.run_bind_of_ok hin, hunpack]
  rfl

end Exchange

/-! ### Inject points -/

/-- What comes of an inject point: the table of the SDK refuses the name, and there is no fault; or
the plan is asked, once, under the id of the name and the next sequence number, and its decision is
returned. -/
inductive Injected (S : Setting π τ) (w : World π τ) (name : Bytes) (w' : World π τ)
    (answer : WorldAnswer) : Prop where
  | refused (hname : validName name = false ∨ w.sdk.intern.nextId = 0xFFFFFFFF)
      (hanswer : answer = .called (.ok (.decided .proceed))) (hplan : w'.plan = w.plan)
      (hiseq : w'.sdk.nextIseq = w.sdk.nextIseq) : Injected S w name w' answer
  | decided (nameId : UInt32) (decision : FaultDecision) (hid : (name, nameId) ∈ w'.bindings)
      (hplan : S.plan.decide w.plan w.sdk.nextIseq nameId (some (Utf8.fromUtf8Lossy name))
        = (w'.plan, decision)) (hanswer : answer = .called (.ok (.decided decision)))
      (hiseq : w'.sdk.nextIseq = w.sdk.nextIseq + 1) : Injected S w name w' answer

/-- The detcalls of a step succeed, and those of an inject point make the host drain the rings. -/
def WorldOp.Prompt : WorldOp → Prop
  | .call (.injectPoint _) _ bells => ∀ b ∈ bells, b.answers = true ∧ b.drains = true
  | .call _ _ bells => ∀ b ∈ bells, b.answers = true
  | .drain => True

/-- What a step does to the plan. -/
def Consults (S : Setting π τ) (w : World π τ) : WorldOp → World π τ → WorldAnswer → Prop
  | .call (.injectPoint name) _ _, w', answer => Injected S w name w' answer
  | _, w', _ => w'.plan = w.plan ∧ w'.sdk.nextIseq = w.sdk.nextIseq

section Inject

variable {S : Setting π τ} {redefs : Nat} {D : UInt32 → Prop} {p : π} {unmatched : Nat}
  {w : World π τ} {c : Contents} {name : Bytes}

/-- The table refuses names that are too long, and is full at last. -/
theorem internName_refused {s : SdkState} {flags : UInt8} (h : (s.internName name flags).2.2 = none) :
  validName name = false ∨ s.intern.nextId = 0xFFFFFFFF
  := by
  rw [SdkState.internName, InternTable.intern] at h
  by_cases hvalid : validName name = true
  · right
    rw [if_neg (not_not.mpr hvalid)] at h
    cases hfind : s.intern.entries.find? fun e => e.name = name with
    | some e =>
        rw [hfind] at h
        cases h
    | none =>
        rw [hfind] at h
        by_contra hroom
        dsimp only at h
        rw [if_neg hroom] at h
        cases h
  · exact Or.inl (Bool.eq_false_iff.mpr hvalid)

/-- **An inject point.** -/
theorem Named.injects (hch : Canonical S.ch) (hfits : Packable S.plan) (name : Bytes)
    (pauses : List Pause) {bells : List Bell}
    (hbells : ∀ b ∈ bells, b.answers = true ∧ b.drains = true)
    (h : Named S redefs (Waits p unmatched fun _ => none) D w c) :
  let r := S.step w (.call (.injectPoint name) pauses bells)
  Injected S w name r.1 r.2 ∧
    Holding (Named S redefs (Waits r.1.plan unmatched fun _ => none) D) r.1
  := by
  intro r
  -- what the call does up to its query, any call with its name and its flags may do
  have hquiet : ¬ (Call.expectReachable name).Injects := by
    rintro ⟨_, heq⟩
    cases heq
  have hX : Rides S (.expectReachable name)
      fun (w : World π τ) c => Waits p unmatched (fun _ => none) w c ∧ Draining w c :=
    (rides_waits hquiet).and (rides_draining hquiet)
  have hI := @walks_names _ _ _ redefs _ _ hX hch D w.sdk
  have hnames : ∀ s, declaredBy (.expectReachable name) w.sdk s D = D := by
    intro s
    funext id
    apply propext
    constructor
    · rintro (hd | ⟨hflag, _⟩)
      · exact hd
      · obtain ⟨_, heq⟩ := (flags_declared _).mp hflag
        cases heq
    · exact Or.inl
  have hend : ∀ {p' s w'}, Numbered s.intern →
      Holding (Querying S redefs (.expectReachable name) (declaredBy (.expectReachable name) w.sdk s D)
        s.intern.bindings s p' unmatched fun _ => none) w' →
      w'.sdk = s ∧ w'.plan = p' ∧
        Holding (Named S redefs (Waits p' unmatched fun _ => none) D) w' := by
    rintro p' s w' hnumbered ⟨c', h'⟩
    rw [hnames] at h'
    obtain rfl := h'.sdk
    exact ⟨rfl, h'.rides.1.plan, c', h'.naming, hnumbered, h'.rides.1⟩
  have hstart : Walked S redefs (.expectReachable name)
      (fun w c => Waits p unmatched (fun _ => none) w c ∧ Draining w c) D w.sdk w.sdk
      (w.calling (some name) pauses bells) := by
    apply h.walked (fun b hb => (hbells b hb).1)
    exact ⟨⟨h.rides.plan, h.rides.unmatched, h.rides.asked⟩, fun b hb => (hbells b hb).2⟩
  have hcounted := hI.turn hstart (sameNames_countInject w.sdk)
  obtain ⟨w₁, hw₁⟩ : ∃ w₁, w₁ = S.platform.state.set (w.calling (some name) pauses bells)
      w.sdk.countInject := ⟨_, rfl⟩
  rw [← hw₁] at hcounted
  have hmodify : (Exec.modify fun w => S.platform.state.set w (S.platform.state.get w).countInject
      : Exec (World π τ) Empty Unit).run (w.calling (some name) pauses bells) = (w₁, .ok ()) := by
    rw [Exec.run_modify, hw₁]
    rfl
  obtain ⟨_, _, c₁, hc₁⟩ := id hcounted
  obtain ⟨w₂, _, hrun₂, _, _⟩ := (follows_knows hch).internName (ε := Empty) (L := []) name 0
    (internName_encodable w.sdk.countInject name 0) ⟨c₁, hc₁.naming.holds, hc₁.sdk⟩
  obtain ⟨h₂, hbound⟩ := (hI.internName 0 rfl rfl).of_ok hcounted hrun₂
  have hiseq := nextIseq_internName w.sdk.countInject name 0
  have hcall : ∀ w' res, (S.platform.call (.injectPoint name)).run
      (w.calling (some name) pauses bells) = (w', res) → r = (w', .called res) := by
    intro w' res hrun
    exact congrArg (fun x : World π τ × Res Empty Returned => (x.1, WorldAnswer.called x.2)) hrun
  cases hinterned : (w.sdk.countInject.internName name 0).2.2 with
  | none =>
      rw [hinterned] at hrun₂
      obtain ⟨hsdk, hplan, hnamed⟩ := hend h₂.1 h₂.2.2
      have hpoint : (S.platform.call (.injectPoint name)).run (w.calling (some name) pauses bells)
          = (w₂, .ok (.decided .proceed)) := by
        have hrun : (S.platform.injectPoint name : Exec (World π τ) Empty FaultDecision).run
            (w.calling (some name) pauses bells) = (w₂, .ok .proceed) := by
          rw [Platform.injectPoint, Exec.run_bind_of_ok hmodify, Exec.run_bind_of_ok hrun₂]
          rfl
        rw [Platform.call, Exec.run_bind_of_ok hrun]
        rfl
      rw [hcall _ _ hpoint]
      dsimp only
      rw [hplan]
      have hrefused := internName_refused hinterned
      refine ⟨.refused hrefused rfl (hplan.trans h.rides.plan.symm) ?_, hnamed⟩
      rw [hsdk]
      exact hiseq
  | some nameId =>
      rw [hinterned] at hrun₂
      have hmem := hbound nameId hinterned
      obtain ⟨s, hs⟩ : ∃ s, s = (w.sdk.countInject.internName name 0).1 := ⟨_, rfl⟩
      rw [← hs] at h₂ hmem hiseq
      obtain ⟨_, _, c₂, hc₂⟩ := id h₂
      have hsame : s.SameNames { s with nextIseq := s.nextIseq + 1 } := ⟨rfl, rfl⟩
      have htaken := hI.turn h₂ hsame
      obtain ⟨w₃, hw₃⟩ : ∃ w₃, w₃ = S.platform.state.set w₂
          { s with nextIseq := s.nextIseq + 1 } := ⟨_, rfl⟩
      rw [← hw₃] at htaken
      have htake : (S.platform.takeIseq : Exec (World π τ) Empty UInt32).run w₂
          = (w₃, .ok s.nextIseq) := by
        rw [hw₃, ← hc₂.sdk]
        rfl
      obtain ⟨w₄, hrun₄, h₄⟩ := run_query hch hfits hquiet rfl hmem s.nextIseq htaken.2.2
      obtain ⟨hsdk, hplan, hnamed⟩ := hend htaken.1 h₄
      have hpoint : (S.platform.call (.injectPoint name)).run (w.calling (some name) pauses bells)
          = (w₄, .ok (.decided (S.plan.decide p s.nextIseq nameId
              (some (Utf8.fromUtf8Lossy name))).2)) := by
        have hrun : (S.platform.injectPoint name : Exec (World π τ) Empty FaultDecision).run
            (w.calling (some name) pauses bells)
            = (w₄, .ok (S.plan.decide p s.nextIseq nameId (some (Utf8.fromUtf8Lossy name))).2) := by
          rw [Platform.injectPoint, Exec.run_bind_of_ok hmodify, Exec.run_bind_of_ok hrun₂]
          dsimp only
          rw [Exec.run_bind_of_ok htake, Exec.run_bind_of_ok (Exec.run_attempt_of_ok hrun₄)]
          rfl
        rw [Platform.call, Exec.run_bind_of_ok hrun]
        rfl
      rw [hcall _ _ hpoint]
      dsimp only
      rw [hplan]
      refine ⟨.decided nameId _ ?_ ?_ rfl ?_, hnamed⟩
      · rw [World.bindings, hsdk]
        exact hmem
      · rw [h.rides.plan, hplan, ← show s.nextIseq = w.sdk.nextIseq from hiseq]
      · rw [hsdk]
        exact congrArg (· + 1) hiseq

/-- Calls that do not ask do not consult the plan. -/
theorem consults_of_quiet {call : Call} {pauses : List Pause} {bells : List Bell} {w' : World π τ}
    {answer : WorldAnswer} (hquiet : ¬ call.Injects) (hplan : w'.plan = w.plan)
    (hiseq : w'.sdk.nextIseq = w.sdk.nextIseq) :
  Consults S w (.call call pauses bells) w' answer
  := by
  cases call with
  | injectPoint name => exact absurd ⟨name, rfl⟩ hquiet
  | _ => exact ⟨hplan, hiseq⟩

/-- A step that is prompt consults the plan once, if it is an inject point that is not refused. -/
theorem Named.consults (hch : Canonical S.ch) (hfits : Packable S.plan) {op : WorldOp}
    (hop : op.Prompt) (h : Named S redefs (Waits p unmatched fun _ => none) D w c) :
  let r := S.step w op
  Consults S w op r.1 r.2 ∧
    ∃ D', Holding (Named S redefs (Waits r.1.plan unmatched fun _ => none) D') r.1
  := by
  intro r
  cases op with
  | drain =>
      have hquiet : ¬ Call.frameMark.Injects := by
        rintro ⟨_, heq⟩
        cases heq
      obtain ⟨h', hstep, hnext, _⟩ := h.drain hch (rides_waits hquiet)
      have hplan : r.1.plan = w.plan := (congrArg World.plan hstep).trans rfl
      have hsdk : r.1.sdk = w.sdk := (congrArg World.sdk hstep).trans rfl
      refine ⟨⟨hplan, congrArg SdkState.nextIseq hsdk⟩, D, ?_⟩
      rw [hplan, h.rides.plan]
      exact ⟨_, hstep ▸ hnext⟩
  | call call pauses bells =>
      by_cases hinjects : call.Injects
      · obtain ⟨name, rfl⟩ := hinjects
        obtain ⟨hinjected, hnext⟩ := h.injects hch hfits name pauses hop
        exact ⟨hinjected, D, hnext⟩
      · have hbells : ∀ b ∈ bells, b.answers = true := by
          cases call with
          | injectPoint name => exact absurd ⟨name, rfl⟩ hinjects
          | _ => exact hop
        obtain ⟨hgrows, c', hnext⟩ :
            Grows w.sdk call (S.step w (.call call pauses bells)).1.sdk ∧ _ :=
          h.call hch (rides_waits hinjects) hbells
            ⟨h.rides.plan, h.rides.unmatched, h.rides.asked⟩
        have hplan : r.1.plan = w.plan := hnext.rides.plan.trans h.rides.plan.symm
        refine ⟨consults_of_quiet hinjects hplan (hgrows.iseq hinjects),
          fun id => D id ∨ Declares S w (.call call pauses bells) id, c', ?_⟩
        obtain rfl := hnext.rides.plan
        exact hnext

/-- The world behind the first steps of a run. -/
theorem run_consults (hch : Canonical S.ch) (hfits : Packable S.plan) {ops : List WorldOp}
    (hops : ∀ op ∈ ops, op.Prompt) (h : Named S redefs (Waits p unmatched fun _ => none) D w c) :
  ∃ D', Holding (Named S redefs (Waits (S.after w ops).plan unmatched fun _ => none) D')
    (S.after w ops)
  := by
  induction ops using List.reverseRecOn with
  | nil =>
      refine ⟨D, c, ?_⟩
      rw [after_nil, h.rides.plan]
      exact h
  | append_singleton ops op ih =>
      obtain ⟨D', c', hnamed⟩ := ih fun op hop => hops op (List.mem_append_left _ hop)
      rw [after_concat]
      exact (hnamed.consults hch hfits (hops op (List.mem_append_right _ List.mem_cons_self))).2

/-- **Each inject point returns the decision of the plan about it.**  In a run of calls of the SDK
with the agent and the host around it, in which the detcalls succeed and those of inject points make
the host drain the rings, an inject point asks the plan once, with its sequence number, the id of its
name and the name, and returns its decision; sequence numbers count these queries; no other step
consults the plan; and no query is left over and no answer is without a query. -/
theorem injects_answered (hch : Canonical S.ch) (hfits : Packable S.plan) (h : Newborn S w)
    (hpending : w.events.host.ch.pendingInjects = ∅) {ops : List WorldOp}
    (hops : ∀ op ∈ ops, op.Prompt) (front back : List WorldOp) (op : WorldOp)
    (heq : ops = front ++ op :: back) :
  let w₁ := S.after w front
  let r := S.step w₁ op
  Consults S w₁ op r.1 r.2 ∧ r.1.events.host.ch.pendingInjects = ∅ ∧
    r.1.events.host.ch.unmatchedInjects = w.events.host.ch.unmatchedInjects
  := by
  intro w₁ r
  obtain ⟨c, hholds, hempty⟩ := h.holds
  have hwaits : Waits w.plan w.events.host.ch.unmatchedInjects (fun _ => none) w c := by
    refine ⟨rfl, rfl, ?_⟩
    intro iseq
    rw [asked, hempty, hempty, hpending]
    simp [lastQuery]
  rw [heq] at hops
  obtain ⟨_, c₁, h₁⟩ := run_consults hch hfits
    (fun op hop => hops op (List.mem_append_left _ hop)) (h.named hholds hempty hwaits)
  obtain ⟨hconsults, _, c₂, h₂⟩ :=
    h₁.consults hch hfits (hops op (List.mem_append_right _ List.mem_cons_self))
  refine ⟨hconsults, ?_, h₂.rides.unmatched⟩
  apply Std.ExtTreeMap.ext_getElem?
  intro iseq
  rw [Std.ExtTreeMap.getElem?_empty]
  exact (Option.or_eq_none_iff.mp (h₂.rides.asked iseq)).2

/-- A plan that injects a fault of the platform and one of the workload in turn. -/
def turningPlan : FaultPlan Bool :=
  { decide := fun turn _ _ _ => (!turn, if turn then .workload 64 9 else .platform 3 5) }

theorem packable_turningPlan :
  Packable turningPlan
  := by
  intro turn iseq nameId name
  cases turn with
  | false => exact ⟨by decide, by decide, by decide⟩
  | true => exact ⟨by decide, by decide⟩

/-- The setting with that plan. -/
def faultSetting : Setting Bool Unit := { sampleSetting with plan := turningPlan }

/-- The world in which that plan has decided nothing. -/
def faultWorld : World Bool Unit := { sampleWorld with plan := false }

theorem newborn_faultWorld : Newborn faultSetting faultWorld
  := ⟨newborn_sampleWorld.holds, rfl, rfl, rfl, rfl, rfl⟩

/-- An inject point, and a hit of its name. -/
def faultOps : List WorldOp :=
  [.call (.injectPoint [97]) [⟨[], true, false⟩] [⟨true, true⟩], .call (.expectReachable [97]) [] []]

/-- The second of two inject points of one name returns the fault of the workload. -/
theorem injects_answered_turning :
  let w₁ := faultSetting.after faultWorld faultOps
  let r := faultSetting.step w₁ (.call (.injectPoint [97]) [] [])
  r.2 = .called (.ok (.decided (.workload 64 9))) ∧
    Consults faultSetting w₁ (.call (.injectPoint [97]) [] []) r.1 r.2 ∧
    r.1.events.host.ch.pendingInjects = ∅ ∧
    r.1.events.host.ch.unmatchedInjects = faultWorld.events.host.ch.unmatchedInjects
  := by
  refine ⟨by decide +kernel, ?_⟩
  apply injects_answered canonical_canonicalChannel packable_turningPlan newborn_faultWorld rfl
    _ _ [] _ rfl
  simp [faultOps, WorldOp.Prompt]

end Inject

end Protocol
