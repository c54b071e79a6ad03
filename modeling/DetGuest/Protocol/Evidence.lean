import DetGuest.Lib.Precedence
import DetGuest.Protocol.Exits
import DetGuest.Sdk.Sites

/-!
# The agent's evidence

What the region server emits for a request, and how it lands on ring A: the name of the region is
announced in front of the registration, under the id that the workload gave it.
-/

namespace Protocol

open Wire Host Sdk Wire.Regionipc

variable {π τ ε : Type}

/-! ### What the server emits -/

/-- The evidence of a registration. -/
def evidence (vnanos : UInt64) (nameId : UInt32) (name : Bytes) (r : RegionEvent) :
    List Agent.Emission :=
  [⟨vnanos, 0, .nameIntern nameId name, false⟩, ⟨vnanos + 1, 0, .regionRegister r, true⟩]

/-- The server emits nothing for a request, or the evidence of a registration. -/
inductive Emits (req : Request) (a a' : Agent.RegionIpc τ) : Prop where
  | nothing (h : a'.emitted = a.emitted) : Emits req a a'
  | evidence (vnanos : UInt64) (name : Bytes) (r : RegionEvent)
      (hreq : req.names = some (name, r.nameId))
      (h : a'.emitted = a.emitted ++ evidence vnanos r.nameId name r) : Emits req a a'

section Server

variable {dbg : Bool} {f : Agent.Translator τ} {a a' : Agent.RegionIpc τ} {req : Request}
  {reply : Reply} {peerPid : Int32} {workloadPid : Option Int32}

theorem emitted_translate {pid : Int32} {gva len : UInt64}
    {res : Except Agent.BuildExtentsError (List Extent)}
    (h : (Agent.RegionIpc.translate f pid gva len).run a = (a', .ok res)) :
  a'.emitted = a.emitted
  := by
  obtain ⟨rfl, _⟩ := Prod.mk.inj h
  rfl

theorem emitted_onManifest {α : Type} {x : Exec Slice Status α} {res : Except Status α}
    (h : (Agent.RegionIpc.onManifest x).run a = (a', .ok res)) :
  a'.emitted = a.emitted
  := by
  simp only [Agent.RegionIpc.onManifest] at h
  split at h
  · obtain ⟨rfl, _⟩ := Prod.mk.inj h
    rfl
  · obtain ⟨rfl, _⟩ := Prod.mk.inj h
    rfl
  · cases (Prod.mk.inj h).2

/-- A reply with an error grants nothing. -/
theorem answers_errReply (req : Request) {status : Status} (hstatus : status ≠ .ok) :
  Answers req (Agent.errReply status)
  := by
  intro hok
  cases status <;> first | exact absurd rfl hstatus | exact absurd hok (by decide)

theorem status_buildError (e : Agent.BuildExtentsError) : Agent.buildErrorStatus e ≠ .ok
  := by
  rcases e with (_ | _ | _ | _) | _ <;> simp [Agent.buildErrorStatus]

/-- The writers of the manifest never fail with `ok`. -/
theorem fails_writeRegion (dbg : Bool) (name : Bytes) (nameId layoutVersion flags : UInt32)
    (gva len : UInt64) (extents : List Extent) :
  Exec.Fails (Agent.writeRegion dbg name nameId layoutVersion flags gva len extents)
    (fun status => status ≠ .ok)
  := by
  have hlift : ∀ {α ε : Type} (r : Res ε α) {status : Status}, status ≠ .ok →
      Exec.Fails (Exec.lift (r.mapErr fun _ => status) : Exec Slice Status α)
        (fun status => status ≠ .ok) := by
    intro α ε r status hstatus
    apply Exec.fails_lift
    intro e he
    cases r with
    | ok a => cases he
    | err e' =>
        cases he
        exact hstatus
    | panic => cases he
  rw [Agent.writeRegion]
  refine (hlift _ (by simp)).bind fun packedName => ?_
  refine Exec.fails_get.bind fun manifest => ?_
  refine (hlift _ (by simp)).bind fun hdr => ?_
  refine (hlift _ (by simp)).bind fun _ => ?_
  refine (Exec.fails_failIf (by simp)).bind fun _ => ?_
  refine (Exec.fails_failIf (by simp)).bind fun _ => ?_
  refine (Exec.fails_mapErr fun _ => by simp).bind fun oddGeneration => ?_
  refine Exec.fails_expect.bind fun _ => ?_
  refine Exec.fails_expect.bind fun _ => ?_
  refine Exec.fails_expect.bind fun _ => ?_
  refine (Exec.fails_mapErr fun _ => by simp).bind fun generation => ?_
  exact Exec.fails_pure _

/-- The error of a call on the manifest is that of the call. -/
theorem error_onManifest {α : Type} {x : Exec Slice Status α} {status : Status}
    {P : Status → Prop} (hx : Exec.Fails x P)
    (h : (Agent.RegionIpc.onManifest x).run a = (a', .ok (.error status))) :
  P status
  := by
  simp only [Agent.RegionIpc.onManifest] at h
  split at h
  · cases (Prod.mk.inj h).2
  · next heq =>
    cases (Prod.mk.inj h).2
    exact hx _ _ _ heq
  · cases (Prod.mk.inj h).2

/-- What the server replies to a request, and what it emits. -/
theorem handle_emits
    (h : (Agent.RegionIpc.handle dbg f req peerPid workloadPid).run a = (a', .ok reply)) :
  Answers req reply ∧ Emits req a a'
  := by
  cases req with
  | register flags layoutVersion nameId gva len name =>
      rw [Agent.RegionIpc.handle] at h
      split at h
      · obtain ⟨rfl, hreply⟩ := Prod.mk.inj h
        rw [← Res.ok.inj hreply]
        exact ⟨answers_errReply _ (by simp), .nothing rfl⟩
      · obtain ⟨a₁, answer, htranslate, h⟩ := Exec.run_bind_eq_ok.mp h
        have hemitted₁ := emitted_translate htranslate
        cases answer with
        | error e =>
            obtain ⟨rfl, hreply⟩ := Prod.mk.inj h
            rw [← Res.ok.inj hreply]
            exact ⟨answers_errReply _ (status_buildError e), .nothing hemitted₁⟩
        | ok extents =>
            obtain ⟨a₂, written, hwritten, h⟩ := Exec.run_bind_eq_ok.mp h
            have hemitted₂ := (emitted_onManifest hwritten).trans hemitted₁
            cases written with
            | error status =>
                obtain ⟨rfl, hreply⟩ := Prod.mk.inj h
                rw [← Res.ok.inj hreply]
                have hstatus := error_onManifest (fails_writeRegion _ _ _ _ _ _ _ _) hwritten
                exact ⟨answers_errReply _ hstatus, .nothing hemitted₂⟩
            | ok written =>
                obtain ⟨regionId, generation⟩ := written
                dsimp only at h
                split at h
                · obtain ⟨rfl, hreply⟩ := Prod.mk.inj h
                  rw [← Res.ok.inj hreply]
                  exact ⟨answers_errReply _ (by simp), .nothing hemitted₂⟩
                · obtain ⟨rfl, hreply⟩ := Prod.mk.inj h
                  rw [← Res.ok.inj hreply]
                  refine ⟨?_, .evidence a₂.vnanos name
                    { regionId, nameId, layoutVersion
                      manifestGeneration := generation.toUInt32 } rfl ?_⟩
                  · rintro _ _ _ ⟨rfl, rfl⟩
                    rfl
                  rw [← hemitted₂]
                  exact List.append_assoc _ _ _
  | unregister regionId =>
      refine ⟨fun _ _ _ hnames => absurd hnames (by simp [Request.names]), .nothing ?_⟩
      rw [Agent.RegionIpc.handle] at h
      split at h
      · obtain ⟨rfl, _⟩ := Prod.mk.inj h
        rfl
      · obtain ⟨a₁, s, hget, h⟩ := Exec.run_bind_eq_ok.mp h
        obtain ⟨rfl, hs⟩ := Prod.mk.inj hget
        obtain rfl := Res.ok.inj hs
        split at h
        · obtain ⟨rfl, _⟩ := Prod.mk.inj h
          rfl
        · obtain ⟨a₂, buried, hburied, h⟩ := Exec.run_bind_eq_ok.mp h
          have hemitted := emitted_onManifest hburied
          cases buried with
          | error status =>
              obtain ⟨rfl, _⟩ := Prod.mk.inj h
              exact hemitted
          | ok generation =>
              obtain ⟨rfl, _⟩ := Prod.mk.inj h
              exact hemitted

/-- The bytes of a request tell its name and its id. -/
theorem names_requestBytes {req' : Request} (h : requestBytes req' = requestBytes req) :
  req'.names = req.names
  := by
  have hkind : ∀ flags layoutVersion nameId gva len name regionId,
      requestBytes (.register flags layoutVersion nameId gva len name)
        ≠ requestBytes (.unregister regionId) := by
    intro flags layoutVersion nameId gva len name regionId h
    obtain ⟨hheader, _⟩ := List.append_inj h rfl
    exact absurd hheader (by decide)
  cases req with
  | register flags layoutVersion nameId gva len name =>
      cases req' with
      | register flags' layoutVersion' nameId' gva' len' name' =>
          obtain ⟨_, h⟩ := List.append_inj h rfl
          obtain ⟨_, h⟩ := List.append_inj h (by simp)
          obtain ⟨_, h⟩ := List.append_inj h (by simp)
          obtain ⟨hid, h⟩ := List.append_inj h (by simp)
          obtain ⟨_, h⟩ := List.append_inj h (by simp)
          obtain ⟨_, h⟩ := List.append_inj h (by simp)
          obtain ⟨_, hname⟩ := List.append_inj h (by simp)
          have hsame := congrArg Bytes.toU32 hid
          rw [Bytes.toU32_ofU32, Bytes.toU32_ofU32] at hsame
          rw [Request.names, Request.names, hsame, hname]
      | unregister regionId => exact (hkind _ _ _ _ _ _ _ h.symm).elim
  | unregister regionId =>
      cases req' with
      | register flags' layoutVersion' nameId' gva' len' name' => exact (hkind _ _ _ _ _ _ _ h).elim
      | unregister regionId' => rfl

/-- What the server replies to a datagram that the SDK encoded, and what it emits. -/
theorem serve_emits {n : Nat}
    (hn : ((encodeRequest req).run (Bytes.zeros maxDatagram)).2 = .ok n)
    (h : (Agent.RegionIpc.serve dbg f (((encodeRequest req).run (Bytes.zeros maxDatagram)).1.take n)
      peerPid workloadPid).run a = (a', .ok reply)) :
  Answers req reply ∧ Emits req a a'
  := by
  obtain ⟨hnamed, hfits⟩ := encodeRequest_eq_ok (Prod.ext rfl hn)
  have hbytes : ((encodeRequest req).run (Bytes.zeros maxDatagram)).1.take n = requestBytes req := by
    rw [run_encodeRequest hnamed hfits] at hn ⊢
    rw [← Res.ok.inj hn]
    exact List.take_left
  rw [hbytes, Agent.RegionIpc.serve] at h
  split at h
  · obtain ⟨rfl, hreply⟩ := Prod.mk.inj h
    rw [← Res.ok.inj hreply]
    exact ⟨answers_errReply _ (by simp), .nothing rfl⟩
  · cases hdecode : decodeRequest (requestBytes req) with
    | ok req' =>
        rw [hdecode] at h
        have hnames : req'.names = req.names :=
          names_requestBytes (decodeRequest_eq_ok.mp hdecode).2.symm
        obtain ⟨hanswers, hemits⟩ := handle_emits h
        rw [Answers, hnames] at hanswers
        refine ⟨hanswers, ?_⟩
        cases hemits with
        | nothing hsame => exact .nothing hsame
        | evidence vnanos name r hreq htold => exact .evidence vnanos name r (hnames ▸ hreq) htold
    | err e =>
        rw [hdecode] at h
        obtain ⟨rfl, hreply⟩ := Prod.mk.inj h
        rw [← Res.ok.inj hreply]
        exact ⟨answers_errReply _ (by simp), .nothing rfl⟩
    | panic =>
        rw [hdecode] at h
        cases h

end Server

/-! ### How it lands -/

section Landing

variable {S : Setting π τ} {I J J' : World π τ → Contents → Prop} {g : GuestRing} {flags : UInt8}
  {ev : EventPayload}

/-- With `I` in front of it, a push of the event on a ring leads to `J`. -/
def PublishesOn (S : Setting π τ) (g : GuestRing) (I J : World π τ → Contents → Prop)
    (flags : UInt8) (ev : EventPayload) : Prop :=
  ∀ w c p vnanos new, I w c →
    new = eventRecs (ringOf S.ch g.id) (w.events.mem.u32 (ringOf S.ch g.id).prod)
      (w.events.nextSeq g) vnanos flags ev →
    Holds S.ch (w.events.setProducer g p) (c.push g new) →
    J (w.publish g p new) (c.push g new)

theorem triple_pause (hI : Stable S I) (hch : Canonical S.ch) :
  Exec.Triple (Holding I) (S.pause : Exec (World π τ) ε Pause) (fun _ => Holding I) (Holding I)
  := by
  rintro w ⟨c, h⟩
  obtain ⟨w', c', hrun, h', _⟩ := run_pause (ε := ε) hI hch h
  rw [hrun]
  exact ⟨c', h'⟩

theorem triple_doorbellA (hI : Stable S I) (hch : Canonical S.ch) :
  Exec.Triple (Holding I) (S.doorbellA : Exec (World π τ) ε Unit) (fun _ => Holding I) (Holding I)
  := by
  rintro w ⟨c, h⟩
  obtain ⟨w', c', hrun, h', _⟩ := run_bell (ε := ε) hI hch h
  rw [Setting.doorbellA, Exec.run_bind_of_ok hrun]
  exact ⟨c', h'⟩

/-- The loop of a critical event of the agent ends with the event published. -/
theorem triple_agentEmit (hI : Stable S I) (hch : Canonical S.ch) (vnanos : UInt64)
    (hev : ev.Encodable) (hcritical : ev.kind.isCritical = true)
    (hpub : PublishesOn S .A I J flags ev) (fuel : Nat) :
  Exec.Triple (Holding I)
    (Agent.emit S.dbg (S.ring .A) (ringOf S.ch .A) S.ch.base.gpa vnanos flags ev
      (S.doorbellA : Exec (World π τ) ε Unit) fuel) (fun _ => Holding J) (Holding I)
  := by
  induction fuel with
  | zero => exact Exec.triple_panic fun _ h => h
  | succ fuel ih =>
      rintro w ⟨c, h⟩
      have hpush := run_tryPush (hI.holds h) hch .A vnanos flags hev
      dsimp only [GuestRing.id] at hpush
      rw [Agent.emit]
      rcases hpush with ⟨_, hfull⟩ | ⟨p, seq, new, hnew, hok, hset, hholds⟩
      · rw [Exec.run_bind_of_ok (Exec.run_attempt_of_err (Exec.run_focus_same hfull))]
        dsimp only
        rw [if_pos hcritical]
        exact ((triple_doorbellA hI hch).bind fun _ => ih) w ⟨c, h⟩
      · rw [Exec.run_bind_of_ok (Exec.run_attempt_of_ok (Exec.run_focus hok)), hset]
        exact ⟨_, hpub w c p vnanos new h hnew hholds⟩

/-- A critical event with the doorbell that may go with it. -/
theorem triple_emitOne (hI : Stable S I) (hJ : Stable S J) (hch : Canonical S.ch)
    {e : Agent.Emission} (hev : e.ev.Encodable) (hcritical : e.ev.kind.isCritical = true)
    (hpub : PublishesOn S .A I J e.flags e.ev) (hend : ∀ w, Holding J w → Holding I w)
    (fuel : Nat) :
  Exec.Triple (Holding I)
    (Agent.emitOne S.dbg (S.ring .A) (ringOf S.ch .A) S.ch.base.gpa
      (S.doorbellA : Exec (World π τ) ε Unit) fuel e) (fun _ => Holding J) (Holding I)
  := by
  have hemit := triple_agentEmit (ε := ε) hI hch e.vnanos hev hcritical hpub fuel
  rw [Agent.emitOne]
  split
  · apply hemit.bind
    intro landed
    refine ((triple_doorbellA hJ hch).conseq (fun _ h => h) (fun _ _ h => h) hend).bind fun _ => ?_
    exact Exec.triple_pure fun _ h => h
  · exact hemit

/-- The evidence of a registration. -/
theorem triple_evidence (hI : Stable S I) (hJ : Stable S J) (hJ' : Stable S J')
    (hch : Canonical S.ch) {nameId : UInt32} {name : Bytes} (hname : name.length ≤ maxName)
    {r : RegionEvent} (hpub : PublishesOn S .A I J 0 (.nameIntern nameId name))
    (hpub' : PublishesOn S .A J J' 0 (.regionRegister r)) (hend : ∀ w, Holding J w → Holding I w)
    (hend' : ∀ w, Holding J' w → Holding J w) (vnanos : UInt64) (fuel : Nat) :
  Exec.Triple (Holding I)
    (Agent.emitAll S.dbg (S.ring .A) (ringOf S.ch .A) S.ch.base.gpa
      (S.doorbellA : Exec (World π τ) ε Unit) fuel (evidence vnanos nameId name r))
    (fun _ => Holding I) (Holding I)
  := by
  have hall : ∀ w, Holding J' w → Holding I w := fun w h => hend w (hend' w h)
  rw [evidence, Agent.emitAll]
  refine (triple_emitOne hI hJ hch (e := ⟨vnanos, 0, .nameIntern nameId name, false⟩) hname rfl
    hpub hend fuel).bind fun landed => ?_
  rw [Agent.emitAll]
  refine Exec.Triple.bind (Q := fun _ => Holding J') ?_ fun rest => Exec.triple_pure hall
  refine ((triple_emitOne hJ hJ' hch (e := ⟨vnanos + 1, 0, .regionRegister r, true⟩) trivial rfl
    hpub' hend' fuel).conseq (fun _ h => h) (fun _ _ h => h) hend).bind fun landed' => ?_
  rw [Agent.emitAll]
  apply Exec.Triple.bind (Q := fun _ => Holding J') (Exec.triple_pure fun _ h => h)
  intro rest
  exact Exec.triple_pure fun _ h => h

/-- Replacing the region server changes none of what `I` tells, and its evidence leads from `I` to
`I`. -/
structure Serving (S : Setting π τ) (I : World π τ → Contents → Prop) (req : Request) : Prop where
  agent : ∀ {w c} agent, I w c → I { w with agent } c
  evidence : ∀ name r, req.names = some (name, r.nameId) → name.length ≤ maxName →
    ∃ J J' : World π τ → Contents → Prop, Stable S J ∧ Stable S J' ∧
      PublishesOn S .A I J 0 (.nameIntern r.nameId name) ∧
      PublishesOn S .A J J' 0 (.regionRegister r) ∧ (∀ w, Holding J w → Holding I w) ∧
      ∀ w, Holding J' w → Holding J w

/-- The server answers a datagram that the SDK encoded. -/
theorem triple_serve (hI : Stable S I) (hch : Canonical S.ch) {req : Request} {n : Nat}
    (hserves : Serving S I req)
    (hn : ((encodeRequest req).run (Bytes.zeros maxDatagram)).2 = .ok n) :
  Exec.Triple (Holding I)
    (S.serve (((encodeRequest req).run (Bytes.zeros maxDatagram)).1.take n))
    (fun reply w => Holding I w ∧ ∀ r, decodeReply reply = .ok r → Answers req r) (Holding I)
  := by
  have hagent : ∀ w agent, Holding I w → Holding I { w with agent } :=
    fun w agent ⟨c, h⟩ => ⟨c, hserves.agent agent h⟩
  have hname : ∀ name nameId, req.names = some (name, nameId) → name.length ≤ maxName := by
    intro name nameId hnames
    have hnamed := (encodeRequest_eq_ok (Prod.ext rfl hn)).1
    cases req with
    | register flags layoutVersion id gva len name' =>
        obtain ⟨rfl, _⟩ := Prod.mk.inj (Option.some.inj hnames)
        exact Nat.le_trans hnamed.2 (by decide)
    | unregister regionId => cases hnames
  apply Exec.triple_forall
  intro w hw
  rw [Setting.serve]
  apply (Exec.triple_get (R := fun v v' => v = w ∧ v' = w) fun _ h => ⟨h, h⟩).bind
  intro v
  apply Exec.triple_forall
  rintro w ⟨rfl, rfl⟩
  rcases hrun : (Agent.RegionIpc.serve S.dbg S.translator
      (((encodeRequest req).run (Bytes.zeros maxDatagram)).1.take n) S.pid S.workloadPid).run
      (Setting.server.get w) with ⟨agent, reply | e | _⟩
  · obtain ⟨hanswers, hemits⟩ := serve_emits hn hrun
    have hserve : Exec.Triple (fun v' => v' = w)
        (Exec.expect (Exec.focus Setting.server (Agent.RegionIpc.serve S.dbg S.translator
          (((encodeRequest req).run (Bytes.zeros maxDatagram)).1.take n) S.pid S.workloadPid))
          : Exec (World π τ) Unit Reply)
        (fun r v' => r = reply ∧ v' = { w with agent }) (Holding I) := by
      apply Exec.triple_of_run
      rintro _ rfl
      exact ⟨_, _, Exec.run_expect_of_ok (Exec.run_focus hrun), rfl, rfl⟩
    apply hserve.bind
    intro r
    apply Exec.triple_forall
    rintro _ ⟨rfl, rfl⟩
    refine Exec.Triple.bind (Q := fun u u' => u = { w with agent } ∧ u' = { w with agent })
      (Exec.triple_get fun _ h => ⟨h, h⟩) fun u => ?_
    apply Exec.triple_forall
    rintro _ ⟨rfl, rfl⟩
    have hstart := hagent w agent hw
    refine Exec.Triple.bind (Q := fun _ => Holding I) ?_ fun landed => ?_
    · cases hemits with
      | nothing hsame =>
          have hnone : agent.emitted.drop w.agent.emitted.length = [] := by
            rw [hsame]
            exact List.drop_length
          dsimp only
          rw [hnone]
          apply Exec.triple_pure
          rintro _ rfl
          exact hstart
      | evidence vnanos name r' hnames htold =>
          have hsome : agent.emitted.drop w.agent.emitted.length
              = evidence vnanos r'.nameId name r' := by
            rw [htold]
            exact List.drop_left
          obtain ⟨J, J', hJ, hJ', hpub, hpub', hend, hend'⟩ :=
            hserves.evidence name r' hnames (hname _ _ hnames)
          dsimp only
          rw [hsome]
          apply (triple_evidence hI hJ hJ' hch (hname _ _ hnames) hpub hpub' hend hend' vnanos
            _).pre
          rintro _ rfl
          exact hstart
    · rw [run_encodeReply _ (by simp [Bytes.zeros, replyLen, maxDatagram])]
      dsimp only
      apply Exec.Triple.bind (Q := fun n u => Holding I u ∧ n = replyLen)
      · apply Exec.triple_of_run
        intro u hu
        exact ⟨u, replyLen, Exec.run_expect_of_ok (Exec.run_lift _ u), hu, rfl⟩
      · intro m
        apply Exec.triple_pure
        rintro u ⟨hu, rfl⟩
        refine ⟨hu, ?_⟩
        intro r' hdecode
        rw [← length_replyBytes r, List.take_left, decodeReply_replyBytes] at hdecode
        rw [← Res.ok.inj hdecode]
        exact hanswers
  · exact e.elim
  · rintro w rfl
    have hpanic : (Exec.expect (Exec.focus Setting.server (Agent.RegionIpc.serve S.dbg S.translator
        (((encodeRequest req).run (Bytes.zeros maxDatagram)).1.take n) S.pid S.workloadPid))
        : Exec (World π τ) Unit Reply).run w = ({ w with agent }, .panic) := by
      have hfocus := @Exec.run_focus _ _ _ _ Setting.server _ _ _ _ hrun
      simp only [Exec.expect, hfocus]
      rfl
    rw [Exec.run_bind_of_panic hpanic]
    exact hagent w agent hw

/-- A datagram to the agent and its reply. -/
theorem triple_transport (hI : Stable S I) (hch : Canonical S.ch) {req : Request} {n : Nat}
    (hserves : Serving S I req)
    (hn : ((encodeRequest req).run (Bytes.zeros maxDatagram)).2 = .ok n) :
  Exec.Triple (Holding I)
    (S.transport (((encodeRequest req).run (Bytes.zeros maxDatagram)).1.take n))
    (fun reply w => Holding I w ∧ ∀ r, decodeReply reply = .ok r → Answers req r) (Holding I)
  := by
  have hfail : ∀ (p : Pause), Exec.Triple (Holding I)
      (Exec.failIf (p.fails = true) () : Exec (World π τ) Unit Unit) (fun _ => Holding I)
      (Holding I) :=
    fun p => Exec.triple_failIf (fun _ h _ => h) fun _ h _ => h
  rw [Setting.transport]
  apply (triple_pause hI hch).bind
  intro sent
  apply (hfail sent).bind
  intro _
  apply (triple_serve hI hch hserves hn).bind
  intro reply
  apply Exec.triple_forall
  rintro w ⟨hw, hanswers⟩
  refine ((triple_pause hI hch).pre fun v (hv : v = w) => hv ▸ hw).bind fun received => ?_
  · apply (hfail received).bind
    intro _
    exact Exec.triple_pure fun _ h => ⟨h, hanswers⟩

end Landing

end Protocol
