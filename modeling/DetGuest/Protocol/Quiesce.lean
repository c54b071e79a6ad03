import DetGuest.Protocol.World
import DetGuest.Sdk.Quiesce

/-!
# Cooperative quiesce over a channel

The host and the agent send `QuiesceReq` and `Resume` records on ring I while a thread of the
workload goes in and out of `quiesce_check`.  A parked thread stays until the `Resume` of its
token, and each request is answered exactly when the requests do not overlap: a request that
arrives while the thread is parked is consumed without an answer.
-/

namespace Protocol

open Wire Host

/-! ### The operations -/

/-- The channel, and the clock and the place of the thread. -/
structure QuiesceState where
  world : EventState
  vnanos : UInt64
  pc : Sdk.QuiescePc

/-- A call of `quiesce_check`, a step of the thread with the result of the doorbell, another
event of the agent or of the workload, a record of the host or of the agent for ring I, or a
drain. -/
inductive QuiesceOp where
  | check
  | run (doorbell : Res Sdk.InitError Unit)
  | emit (g : GuestRing) (vnanos : UInt64) (extraFlags : UInt8) (ev : EventPayload)
  | pushWorkloadCtrl (rec : WorkloadCtrl)
  | relayWorkloadCtrl (vnanos : UInt64) (rec : WorkloadCtrl)
  | drain

/-- What an operation gives. -/
inductive QuiesceAnswer where
  | done
  | progress (p : Sdk.Progress)
  | pushedCtrl (res : Res PushError Unit)
  | relayed (res : Res RingFull Unit)
  | drained (res : Res WireError (List GuestEvent))

/-- One operation.  The thread in `quiesce_check` holds the lock of the SDK, so other events of
the workload wait until it is out. -/
def quiesceStep (dbg : Bool) (ch : Channel) (s : QuiesceState) (op : QuiesceOp) :
    QuiesceState × QuiesceAnswer :=
  match op with
  | .check => (if s.pc = .idle then { s with pc := .checking } else s, .done)
  | .run doorbell =>
      let next := Sdk.Thread.step dbg (ringOf ch .W) (ringOf ch .I) doorbell
        ⟨s.world.mem, s.world.nextSeq .W, s.vnanos, s.pc⟩
      ({ world := s.world.setProducer .W ⟨next.1.mem, next.1.nextSeq⟩
         vnanos := next.1.vnanos
         pc := next.1.pc }, .progress next.2)
  | .emit g vnanos extraFlags ev =>
      if g = .W ∧ s.pc ≠ .idle then
        (s, .done)
      else
        let next := (Producer.tryPush dbg (ringOf ch g.id) (encodedEventLen ev)
          (fun seq => encodeEvent dbg seq vnanos extraFlags ev)).run
            ⟨s.world.mem, s.world.nextSeq g⟩
        ({ s with world := s.world.setProducer g next.1 }, .done)
  | .pushWorkloadCtrl rec =>
      let next := (Host.pushWorkloadCtrl dbg rec).run s.world.host
      ({ s with world := { s.world with host := next.1 } }, .pushedCtrl next.2)
  | .relayWorkloadCtrl vnanos rec =>
      let next := (Agent.relayWorkloadCtrl dbg ch.base.gpa vnanos rec).run s.world.mem
      ({ s with world := s.world.setMem next.1 }, .relayed next.2)
  | .drain =>
      let next := (drainEvents dbg).run s.world.host
      ({ s with world := { s.world with host := next.1 } }, .drained next.2)

/-- A step of the thread, once it is known. -/
theorem quiesceStep_run {dbg : Bool} {ch : Channel} {world : EventState} {now : UInt64}
    {pc : Sdk.QuiescePc} {doorbell : Res Sdk.InitError Unit} {t : Sdk.Thread} {p : Sdk.Progress}
    (h : Sdk.Thread.step dbg (ringOf ch .W) (ringOf ch .I) doorbell
      ⟨world.mem, world.nextSeq .W, now, pc⟩ = (t, p)) :
  quiesceStep dbg ch ⟨world, now, pc⟩ (.run doorbell)
    = (⟨world.setProducer .W ⟨t.mem, t.nextSeq⟩, t.vnanos, t.pc⟩, .progress p)
  := by
  rw [quiesceStep, h]

/-- Ring W works: doorbells succeed, and the other events can be encoded and are not
`QuiesceReady`s. -/
def QuiesceOp.Working : QuiesceOp → Prop
  | .run doorbell => doorbell = .ok ()
  | .emit _ _ _ ev => ev.Encodable ∧ ∀ token, ev ≠ .quiesceReady token
  | _ => True

/-! ### Requests and answers -/

/-- The record a step consumes. -/
def QuiesceAnswer.consumed : QuiesceOp × QuiesceAnswer → Option WorkloadCtrl
  | (_, .progress (.polled (.ok rec))) => rec
  | _ => none

/-- The token of the `QuiesceReady` a step publishes. -/
def QuiesceAnswer.ready : QuiesceOp × QuiesceAnswer → Option UInt64
  | (_, .progress (.emitted token (.ok ()))) => some token
  | _ => none

/-- The record an operation sends on ring I. -/
def QuiesceAnswer.sent : QuiesceOp × QuiesceAnswer → Option WorkloadCtrl
  | (.pushWorkloadCtrl rec, .pushedCtrl (.ok ())) => some rec
  | (.relayWorkloadCtrl _ rec, .relayed (.ok ())) => some rec
  | _ => none

/-- The token of a `QuiesceReady` of ring W. -/
def readyToken (ev : GuestEvent) : Option UInt64 :=
  match ev.ring, ev.payload with
  | .W, .quiesceReady token => some token
  | _, _ => none

/-- The tokens of the `QuiesceReady`s of ring W that an operation drains. -/
def QuiesceAnswer.seen : QuiesceOp × QuiesceAnswer → List UInt64
  | (_, .drained (.ok evs)) => evs.filterMap readyToken
  | _ => []

/-- The records consumed by the workload. -/
def consumedIn (tr : List (QuiesceOp × QuiesceAnswer)) : List WorkloadCtrl :=
  tr.filterMap QuiesceAnswer.consumed

/-- The records sent on ring I. -/
def ctrlsSentIn (tr : List (QuiesceOp × QuiesceAnswer)) : List WorkloadCtrl :=
  tr.filterMap QuiesceAnswer.sent

/-- The tokens of the published `QuiesceReady`s. -/
def readiesIn (tr : List (QuiesceOp × QuiesceAnswer)) : List UInt64 :=
  tr.filterMap QuiesceAnswer.ready

/-- The tokens of the `QuiesceReady`s the host has drained from ring W. -/
def readiesSeen (tr : List (QuiesceOp × QuiesceAnswer)) : List UInt64 :=
  tr.flatMap QuiesceAnswer.seen

/-- The token of a request. -/
def requestToken : WorkloadCtrl → Option UInt64
  | .quiesceReq token => some token
  | .resume _ => none

/-- The tokens of the requests among records. -/
def requestsIn (recs : List WorkloadCtrl) : List UInt64 := recs.filterMap requestToken

/-- The token that the thread is about to answer. -/
def pending : Sdk.QuiescePc → List UInt64
  | .emitting _ token => [token]
  | _ => []

/-- The token whose `Resume` the thread is to wait for. -/
def awaited : Sdk.QuiescePc → Option UInt64
  | .emitting _ token => some token
  | .parked token => some token
  | _ => none

/-! ### Overlapping requests -/

/-- The token awaited behind a record. -/
def awaitedAfter (p : Option UInt64) (rec : WorkloadCtrl) : Option UInt64 :=
  match p, rec with
  | none, .quiesceReq token => some token
  | some token, .resume token' => if token' = token then none else some token
  | p, _ => p

/-- No request lies between another one and its `Resume`. -/
def Serial : Option UInt64 → List WorkloadCtrl → Prop
  | _, [] => True
  | some _, .quiesceReq _ :: _ => False
  | p, rec :: recs => Serial (awaitedAfter p rec) recs

/-- The tokens of the requests that find nothing awaited. -/
def served : Option UInt64 → List WorkloadCtrl → List UInt64
  | _, [] => []
  | p, rec :: recs =>
      (if p.isNone then requestsIn [rec] else []) ++ served (awaitedAfter p rec) recs

theorem requestsIn_cons (rec : WorkloadCtrl) (recs : List WorkloadCtrl) :
  requestsIn (rec :: recs) = requestsIn [rec] ++ requestsIn recs
  := List.filterMap_append (l := [rec])

theorem length_served_le (p : Option UInt64) (recs : List WorkloadCtrl) :
  (served p recs).length ≤ (requestsIn recs).length
  := by
  induction recs generalizing p with
  | nil => simp [served]
  | cons rec recs ih =>
      have h := ih (awaitedAfter p rec)
      rw [served, requestsIn_cons rec recs, List.length_append, List.length_append]
      split
      · omega
      · rw [List.length_nil]
        omega

/-- Every request finds nothing awaited exactly when the requests do not overlap. -/
theorem served_eq_iff (p : Option UInt64) (recs : List WorkloadCtrl) :
  served p recs = requestsIn recs ↔ Serial p recs
  := by
  induction recs generalizing p with
  | nil => simp [served, requestsIn, Serial]
  | cons rec recs ih =>
      rw [served, requestsIn_cons rec recs]
      cases p with
      | none =>
          have hserial : Serial none (rec :: recs) ↔ Serial (awaitedAfter none rec) recs := by
            cases rec <;> exact Iff.rfl
          rw [hserial, ← ih]
          simp
      | some token =>
          cases rec with
          | quiesceReq token' =>
              -- the list of the served tokens stays too short
              have hlen := length_served_le (some token) recs
              simp only [Serial, iff_false]
              intro heq
              have := congrArg List.length heq
              simp [requestsIn, requestToken, awaitedAfter] at this hlen
              omega
          | resume token' => exact ih _

/-- One more record: a request is served if nothing is awaited. -/
theorem served_concat (p : Option UInt64) (recs : List WorkloadCtrl) (rec : WorkloadCtrl) :
  served p (recs ++ [rec])
    = served p recs ++ (if (recs.foldl awaitedAfter p).isNone then requestsIn [rec] else [])
  := by
  induction recs generalizing p with
  | nil => simp [served]
  | cons head recs ih =>
      rw [List.cons_append, served, ih, served, List.foldl_cons, List.append_assoc]

/-! ### The invariant -/

/-- The thread and the trace, for the contents `c` of the rings: what was sent is consumed or
still in ring I; the thread awaits what the consumed records lead to; it has answered the
requests that found it awaiting nothing; and its answers are drained or still in ring W. -/
structure QuiesceInv (ch : Channel) (s : QuiesceState) (tr : List (QuiesceOp × QuiesceAnswer))
    (c : Contents) : Prop where
  holds : Holds ch s.world c
  sent : ctrlsSentIn tr = consumedIn tr ++ c.ctrls
  place : awaited s.pc = (consumedIn tr).foldl awaitedAfter none
  served : readiesIn tr ++ pending s.pc = served none (consumedIn tr)
  seen : readiesSeen tr ++ ((c.events .W).filterMap (eventOf .W)).filterMap readyToken
    = readiesIn tr

section Steps

variable {dbg : Bool} {ch : Channel} {s s' : QuiesceState}
  {tr : List (QuiesceOp × QuiesceAnswer)} {a : QuiesceOp × QuiesceAnswer} {c c' : Contents}

/-- An operation that leaves the thread alone and accounts for what it sends and drains. -/
theorem QuiesceInv.world (h : QuiesceInv ch s tr c) (hholds : Holds ch s'.world c')
    (hplace : awaited s'.pc = awaited s.pc) (hpending : pending s'.pc = pending s.pc)
    (hconsumed : QuiesceAnswer.consumed a = none) (hready : QuiesceAnswer.ready a = none)
    (hsent : c'.ctrls = c.ctrls ++ (QuiesceAnswer.sent a).toList)
    (hseen : QuiesceAnswer.seen a ++ ((c'.events .W).filterMap (eventOf .W)).filterMap readyToken
      = ((c.events .W).filterMap (eventOf .W)).filterMap readyToken) :
  QuiesceInv ch s' (tr ++ [a]) c'
  := by
  have hcons : consumedIn (tr ++ [a]) = consumedIn tr := by
    simp [consumedIn, hconsumed]
  have hreadies : readiesIn (tr ++ [a]) = readiesIn tr := by
    simp [readiesIn, hready]
  refine ⟨hholds, ?_, ?_, ?_, ?_⟩
  · have hs : ctrlsSentIn (tr ++ [a]) = ctrlsSentIn tr ++ (QuiesceAnswer.sent a).toList := by
      rw [ctrlsSentIn, List.filterMap_append, ctrlsSentIn, List.filterMap_cons]
      cases QuiesceAnswer.sent a <;> rfl
    rw [hs, h.sent, hcons, hsent, List.append_assoc]
  · rw [hplace, hcons, h.place]
  · rw [hreadies, hpending, hcons, h.served]
  · have hr : readiesSeen (tr ++ [a]) = readiesSeen tr ++ QuiesceAnswer.seen a := by
      simp [readiesSeen]
    rw [hr, List.append_assoc, hseen, h.seen, hreadies]

/-- A poll of the thread: the record it finds leads it to its next place. -/
theorem QuiesceInv.poll (h : QuiesceInv ch s tr c)
    (hholds : Holds ch s'.world { c with ctrls := c.ctrls.tail })
    (hconsumed : QuiesceAnswer.consumed a = c.ctrls.head?)
    (hready : QuiesceAnswer.ready a = none) (hsent : QuiesceAnswer.sent a = none)
    (hseen : QuiesceAnswer.seen a = [])
    (hplace : awaited s'.pc = c.ctrls.head?.toList.foldl awaitedAfter (awaited s.pc))
    (hpending : pending s.pc = [] ∧ pending s'.pc
      = if (awaited s.pc).isNone then requestsIn c.ctrls.head?.toList else []) :
  QuiesceInv ch s' (tr ++ [a]) { c with ctrls := c.ctrls.tail }
  := by
  have hcons : consumedIn (tr ++ [a]) = consumedIn tr ++ c.ctrls.head?.toList := by
    rw [consumedIn, List.filterMap_append, List.filterMap_cons, hconsumed, consumedIn]
    cases c.ctrls.head? <;> rfl
  have hreadies : readiesIn (tr ++ [a]) = readiesIn tr := by
    simp [readiesIn, hready]
  have hserved := h.served
  rw [hpending.1, List.append_nil] at hserved
  refine ⟨hholds, ?_, ?_, ?_, ?_⟩
  · have hs : ctrlsSentIn (tr ++ [a]) = ctrlsSentIn tr := by
      simp [ctrlsSentIn, hsent]
    rw [hs, h.sent, hcons, List.append_assoc]
    congr 1
    cases c.ctrls <;> rfl
  · rw [hcons, List.foldl_append, ← h.place, hplace]
  · rw [hreadies, hpending.2, hcons, hserved]
    cases c.ctrls.head? with
    | none => simp [requestsIn]
    | some rec => rw [Option.toList_some, served_concat, h.place]
  · have hr : readiesSeen (tr ++ [a]) = readiesSeen tr := by
      simp [readiesSeen, hseen]
    rw [hr, h.seen, hreadies]

theorem setProducer_nextSeq (w : EventState) (g : GuestRing) (m : ByteMem) :
  w.setProducer g ⟨m, w.nextSeq g⟩ = w.setMem m
  := by
  rw [EventState.setProducer, Function.update_eq_self]
  rfl

theorem setMem_mem (w : EventState) :
  w.setMem w.mem = w
  := rfl

/-- The place of the thread behind a poll that found the given record. -/
def polledPc (vnanos : UInt64) (pc : Sdk.QuiescePc) (rec : Option WorkloadCtrl) :
    Sdk.QuiescePc :=
  match pc, rec with
  | .checking, some (.quiesceReq token) => .emitting vnanos token
  | .checking, none => .idle
  | .parked token, some (.resume token') => if token' = token then .checking else .parked token
  | pc, _ => pc

theorem polledPc_resume (vnanos token token' : UInt64) :
  polledPc vnanos (.parked token) (some (.resume token'))
    = if token' = token then .checking else .parked token
  := rfl

/-- Outside an emission the thread polls the next record of ring I. -/
theorem quiesceStep_poll (dbg : Bool) (hholds : Holds ch s.world c) (hch : Canonical ch)
    (hpc : s.pc = .checking ∨ ∃ token, s.pc = .parked token) (doorbell : Res Sdk.InitError Unit) :
  (quiesceStep dbg ch s (.run doorbell)).2 = .progress (.polled (.ok c.ctrls.head?)) ∧
    (quiesceStep dbg ch s (.run doorbell)).1.pc = polledPc s.vnanos s.pc c.ctrls.head? ∧
    Holds ch (quiesceStep dbg ch s (.run doorbell)).1.world { c with ctrls := c.ctrls.tail }
  := by
  obtain ⟨m, hrun, hholds'⟩ := hholds.pollWorkloadCtrl hch dbg
  have hworld : s.world.setProducer .W ⟨m, s.world.nextSeq .W⟩ = s.world.setMem m :=
    setProducer_nextSeq _ _ _
  rcases hpc with hpc | ⟨token, hpc⟩
  · rcases hhead : c.ctrls.head? with _ | (token | token)
    all_goals
      rw [hhead] at hrun
      simp only [quiesceStep, Sdk.Thread.step, hpc, Sdk.quiesceCheck, hrun, hworld]
      exact ⟨trivial, rfl, hholds'⟩
  · rcases hhead : c.ctrls.head? with _ | (token' | token')
    · rw [hhead] at hrun
      simp only [quiesceStep, Sdk.Thread.step, hpc, Sdk.parkUntilResume, hrun, hworld]
      exact ⟨trivial, rfl, hholds'⟩
    · rw [hhead] at hrun
      simp only [quiesceStep, Sdk.Thread.step, hpc, Sdk.parkUntilResume, hrun, hworld]
      exact ⟨trivial, rfl, hholds'⟩
    · rw [hhead] at hrun
      simp only [quiesceStep, Sdk.Thread.step, hpc, Sdk.parkUntilResume, hrun]
      rw [polledPc_resume]
      by_cases htoken : token' = token
      · rw [if_pos htoken, if_pos htoken, hworld]
        exact ⟨rfl, rfl, hholds'⟩
      · rw [if_neg htoken, if_neg htoken, hworld]
        exact ⟨rfl, rfl, hholds'⟩

/-- The next place awaits what the record leads to, and answers a request if nothing was
awaited. -/
theorem polledPc_spec (vnanos : UInt64) {pc : Sdk.QuiescePc} (rec : Option WorkloadCtrl)
    (hpc : pc = .checking ∨ ∃ token, pc = .parked token) :
  awaited (polledPc vnanos pc rec) = rec.toList.foldl awaitedAfter (awaited pc) ∧
    pending pc = [] ∧
    pending (polledPc vnanos pc rec)
      = if (awaited pc).isNone then requestsIn rec.toList else []
  := by
  rcases hpc with rfl | ⟨token, rfl⟩
  · rcases rec with _ | (token | token)
    all_goals exact ⟨rfl, rfl, rfl⟩
  · rcases rec with _ | (token' | token')
    · exact ⟨rfl, rfl, rfl⟩
    · exact ⟨rfl, rfl, rfl⟩
    · rw [polledPc_resume]
      by_cases htoken : token' = token
      · rw [if_pos htoken]
        refine ⟨?_, rfl, rfl⟩
        exact (if_pos htoken).symm
      · rw [if_neg htoken]
        refine ⟨?_, rfl, rfl⟩
        exact (if_neg htoken).symm

theorem QuiesceInv.runPoll (h : QuiesceInv ch s tr c) (hch : Canonical ch)
    (hpc : s.pc = .checking ∨ ∃ token, s.pc = .parked token) (doorbell : Res Sdk.InitError Unit) :
  QuiesceInv ch (quiesceStep dbg ch s (.run doorbell)).1
    (tr ++ [(.run doorbell, (quiesceStep dbg ch s (.run doorbell)).2)])
    { c with ctrls := c.ctrls.tail }
  := by
  obtain ⟨hanswer, hnext, hholds⟩ := quiesceStep_poll dbg h.holds hch hpc doorbell
  obtain ⟨hplace, hpending, hpending'⟩ := polledPc_spec s.vnanos c.ctrls.head? hpc
  rw [hanswer]
  apply h.poll hholds rfl rfl rfl rfl
  · rw [hnext, hplace]
  · rw [hnext]
    exact ⟨hpending, hpending'⟩

/-- The token of a `QuiesceReady` to be sent. -/
def readyOf : EventPayload → Option UInt64
  | .quiesceReady token => some token
  | _ => none

/-- The records of a push on ring W carry the token of the event. -/
theorem readies_eventRecs (dbg : Bool) {r : RingMap} {prod seq : UInt32}
    {vnanos : UInt64} {extraFlags : UInt8} {ev : EventPayload} {new : List Bytes}
    (hev : ev.Encodable) (hprod : prod.toNat % 8 = 0)
    (hnew : new = eventRecs r prod seq vnanos extraFlags ev) :
  (new.filterMap (eventOf .W)).filterMap readyToken = (readyOf ev).toList
  := by
  obtain ⟨htmod, htmin⟩ := r.tail_rules hprod
  obtain ⟨_, _, hsent⟩ := pushRecs_events dbg .W hev htmod htmin hnew
  rw [show eventOf .W = eventOf GuestRing.W.id from rfl, ← hsent]
  cases ev <;> rfl

/-- Another event of the agent or of the workload. -/
theorem QuiesceInv.emit (h : QuiesceInv ch s tr c) (hch : Canonical ch) (g : GuestRing)
    (vnanos : UInt64) (extraFlags : UInt8) {ev : EventPayload} (hev : ev.Encodable)
    (hready : ∀ token, ev ≠ .quiesceReady token) :
  ∃ c', QuiesceInv ch (quiesceStep dbg ch s (.emit g vnanos extraFlags ev)).1
    (tr ++ [(.emit g vnanos extraFlags ev,
      (quiesceStep dbg ch s (.emit g vnanos extraFlags ev)).2)]) c'
  := by
  simp only [quiesceStep]
  split
  · exact ⟨c, h.world h.holds rfl rfl rfl rfl (by simp [QuiesceAnswer.sent]) rfl⟩
  · rcases h.holds.pushEvent hch dbg g vnanos extraFlags hev rfl
      with ⟨_, hfull⟩ | ⟨new, hnew, hok, hholds, _⟩
    · refine ⟨c, h.world ?_ rfl rfl rfl rfl (by simp [QuiesceAnswer.sent]) rfl⟩
      change Holds ch (s.world.setProducer g ((Producer.tryPush dbg (ringOf ch g.id)
        (encodedEventLen ev) (fun seq => encodeEvent dbg seq vnanos extraFlags ev)).run
          ⟨s.world.mem, s.world.nextSeq g⟩).1) c
      rw [hfull, setProducer_nextSeq]
      exact h.holds
    · refine ⟨c.push g new, h.world hholds rfl rfl rfl rfl
        (by simp [QuiesceAnswer.sent, Contents.push]) ?_⟩
      cases g with
      | A => simp [QuiesceAnswer.seen]
      | W =>
          have hnone : readyOf ev = none := by
            cases ev with
            | quiesceReady token => exact absurd rfl (hready token)
            | _ => rfl
          have hrecs := readies_eventRecs dbg hev (h.holds.events .W).prod_aligned hnew
          simp only [QuiesceAnswer.seen, Contents.push_self, List.filterMap_append, hrecs, hnone,
            Option.toList_none, List.append_nil, List.nil_append]

/-- Publishing the `QuiesceReady` of a token answers the request. -/
theorem QuiesceInv.answer {vnanos token : UInt64} {new : List Bytes} (h : QuiesceInv ch s tr c)
    (hholds : Holds ch s'.world (c.push .W new)) (hpc : s.pc = .emitting vnanos token)
    (hpc' : s'.pc = .parked token)
    (hnew : (new.filterMap (eventOf .W)).filterMap readyToken = [token])
    (hconsumed : QuiesceAnswer.consumed a = none) (hready : QuiesceAnswer.ready a = some token)
    (hsent : QuiesceAnswer.sent a = none) (hseen : QuiesceAnswer.seen a = []) :
  QuiesceInv ch s' (tr ++ [a]) (c.push .W new)
  := by
  have hcons : consumedIn (tr ++ [a]) = consumedIn tr := by
    simp [consumedIn, hconsumed]
  have hreadies : readiesIn (tr ++ [a]) = readiesIn tr ++ [token] := by
    simp [readiesIn, hready]
  have hserved := h.served
  have hplace := h.place
  rw [hpc] at hserved hplace
  refine ⟨hholds, ?_, ?_, ?_, ?_⟩
  · have hs : ctrlsSentIn (tr ++ [a]) = ctrlsSentIn tr := by
      simp [ctrlsSentIn, hsent]
    rw [hs, h.sent, hcons]
    rfl
  · rw [hpc', hcons, ← hplace]
    rfl
  · rw [hreadies, hpc', hcons, ← hserved]
    apply List.append_nil
  · have hr : readiesSeen (tr ++ [a]) = readiesSeen tr := by
      simp [readiesSeen, hseen]
    rw [hr, Contents.push_self, List.filterMap_append, List.filterMap_append, hnew,
      ← List.append_assoc, h.seen, hreadies]

/-- The emission of a `QuiesceReady`: the thread stays until the record is published. -/
theorem QuiesceInv.runEmit (dbg : Bool) (h : QuiesceInv ch s tr c) (hch : Canonical ch)
    {vnanos token : UInt64} (hpc : s.pc = .emitting vnanos token) :
  ∃ c', QuiesceInv ch (quiesceStep dbg ch s (.run (.ok ()))).1
      (tr ++ [(.run (.ok ()), (quiesceStep dbg ch s (.run (.ok ()))).2)]) c' ∧
    ∀ token', (quiesceStep dbg ch s (.run (.ok ()))).2 = .progress (.emitted token' (.ok ())) →
      (quiesceStep dbg ch s (.run (.ok ()))).1.pc = .parked token'
  := by
  have hev : (EventPayload.quiesceReady token).Encodable := trivial
  obtain ⟨world, now, pc⟩ := s
  obtain rfl : pc = .emitting vnanos token := hpc
  have hthread := Sdk.Thread.step_emitting dbg (ringOf ch .W) (ringOf ch .I) (.ok ()) world.mem
    (world.nextSeq .W) now vnanos token
  rcases Holds.pushEventW h.holds hch dbg vnanos 0 hev
    with ⟨_, hfull⟩ | ⟨p, new, hok, hnew, _, hholds, _⟩
  · rw [Sdk.emitQuiesceReady_eq hfull, if_neg (by simp)] at hthread
    have hworld := (setProducer_nextSeq world .W world.mem).trans (setMem_mem world)
    rw [quiesceStep_run hthread, hworld]
    refine ⟨c, h.world h.holds rfl rfl rfl rfl ?_ rfl, ?_⟩
    · simp [QuiesceAnswer.sent]
    · intro token' heq
      cases heq
  · rw [Sdk.emitQuiesceReady_eq hok, if_pos rfl] at hthread
    have hrecs := readies_eventRecs dbg hev (h.holds.events .W).prod_aligned hnew
    rw [quiesceStep_run hthread]
    refine ⟨c.push .W new, ?_, ?_⟩
    · exact h.answer hholds rfl rfl hrecs rfl rfl rfl rfl
    · intro token' heq
      cases heq
      rfl

theorem readies_ringA (recs : List Bytes) :
  (recs.filterMap (eventOf .A)).filterMap readyToken = []
  := by
  apply List.filterMap_eq_nil_iff.mpr
  intro ev hev
  rw [readyToken, ring_of_eventOf ev hev]

/-- Every operation with a working ring W keeps the invariant. -/
theorem QuiesceInv.step (h : QuiesceInv ch s tr c) (hch : Canonical ch) {op : QuiesceOp}
    (hop : op.Working) :
  ∃ c', QuiesceInv ch (quiesceStep dbg ch s op).1 (tr ++ [(op, (quiesceStep dbg ch s op).2)]) c'
  := by
  cases op with
  | check =>
      refine ⟨c, h.world ?_ ?_ ?_ rfl rfl (by simp [QuiesceAnswer.sent]) rfl⟩
      · simp only [quiesceStep]
        split
        · exact h.holds
        · exact h.holds
      · simp only [quiesceStep]
        split
        next hidle => rw [hidle]; rfl
        next => rfl
      · simp only [quiesceStep]
        split
        next hidle => rw [hidle]; rfl
        next => rfl
  | run doorbell =>
      obtain rfl : doorbell = .ok () := hop
      cases hpc : s.pc with
      | idle =>
          have hstep : quiesceStep dbg ch s (.run (.ok ())) = (s, .progress .none) := by
            simp only [quiesceStep, Sdk.Thread.step, hpc, setProducer_nextSeq, setMem_mem]
            rw [← hpc]
          rw [hstep]
          exact ⟨c, h.world h.holds rfl rfl rfl rfl (by simp [QuiesceAnswer.sent]) rfl⟩
      | checking => exact ⟨_, h.runPoll hch (Or.inl hpc) _⟩
      | emitting vnanos token =>
          obtain ⟨c', hinv, _⟩ := h.runEmit dbg hch hpc
          exact ⟨c', hinv⟩
      | parked token => exact ⟨_, h.runPoll hch (Or.inr ⟨token, hpc⟩) _⟩
  | emit g vnanos extraFlags ev => exact h.emit hch g vnanos extraFlags hop.1 hop.2
  | pushWorkloadCtrl rec =>
      obtain ⟨h', hpush⟩ := h.holds.pushWorkloadCtrl hch dbg rec
      rcases hpush with ⟨hrun, hholds⟩ | ⟨hrun, hholds⟩
      · simp only [quiesceStep, hrun]
        exact ⟨c, h.world hholds rfl rfl rfl rfl (by simp [QuiesceAnswer.sent]) rfl⟩
      · simp only [quiesceStep, hrun]
        exact ⟨c.send rec, h.world hholds rfl rfl rfl rfl rfl rfl⟩
  | relayWorkloadCtrl vnanos rec =>
      rcases h.holds.relayWorkloadCtrl hch dbg vnanos rec with hrun | ⟨m, hrun, hholds, _⟩
      · simp only [quiesceStep, hrun, setMem_mem]
        exact ⟨c, h.world h.holds rfl rfl rfl rfl (by simp [QuiesceAnswer.sent]) rfl⟩
      · simp only [quiesceStep, hrun]
        exact ⟨c.send rec, h.world hholds rfl rfl rfl rfl rfl rfl⟩
  | drain =>
      obtain ⟨h', hrun, hholds, _, _⟩ := h.holds.drain hch dbg
      simp only [quiesceStep, hrun]
      refine ⟨c.drained, h.world hholds rfl rfl rfl rfl (by simp [QuiesceAnswer.sent, Contents.drained])
        ?_⟩
      simp [QuiesceAnswer.seen, Contents.drainedEvents, Contents.drained, readies_ringA]

end Steps

/-! ### Every run -/

/-- What cooperative quiesce promises of a state and the trace that led to it: the requests
consumed so far are answered in their order, each of them once; the thread leaves the park of
a token only by consuming the `Resume` of that token; and it parks when it has answered. -/
structure Cooperative (dbg : Bool) (ch : Channel) (s : QuiesceState)
    (tr : List (QuiesceOp × QuiesceAnswer)) : Prop where
  answered : readiesIn tr ++ pending s.pc = requestsIn (consumedIn tr)
  stays : ∀ op token, op.Working → s.pc = .parked token →
    (quiesceStep dbg ch s op).1.pc = .parked token ∨
      (quiesceStep dbg ch s op).2 = .progress (.polled (.ok (some (.resume token))))
  parks : ∀ op token, op.Working →
    (quiesceStep dbg ch s op).2 = .progress (.emitted token (.ok ())) →
      (quiesceStep dbg ch s op).1.pc = .parked token

section Stays

variable {dbg : Bool} {ch : Channel} {s : QuiesceState} {tr : List (QuiesceOp × QuiesceAnswer)}
  {c : Contents} {op : QuiesceOp} {token : UInt64}

theorem QuiesceInv.stays (h : QuiesceInv ch s tr c) (hch : Canonical ch)
    (hpc : s.pc = .parked token) :
  (quiesceStep dbg ch s op).1.pc = .parked token ∨
    (quiesceStep dbg ch s op).2 = .progress (.polled (.ok (some (.resume token))))
  := by
  cases op with
  | run doorbell =>
      obtain ⟨hanswer, hnext, _⟩ := quiesceStep_poll dbg h.holds hch (Or.inr ⟨token, hpc⟩)
        doorbell
      rw [hanswer, hnext, hpc]
      rcases c.ctrls.head? with _ | (token' | token')
      · exact Or.inl rfl
      · exact Or.inl rfl
      · by_cases htoken : token' = token
        · subst htoken
          exact Or.inr rfl
        · left
          rw [polledPc_resume, if_neg htoken]
  | check =>
      left
      simp [quiesceStep, hpc]
  | emit g vnanos extraFlags ev =>
      left
      simp only [quiesceStep]
      split
      · exact hpc
      · exact hpc
  | pushWorkloadCtrl rec =>
      left
      simp only [quiesceStep]
      exact hpc
  | relayWorkloadCtrl vnanos rec =>
      left
      simp only [quiesceStep]
      exact hpc
  | drain =>
      left
      simp only [quiesceStep]
      exact hpc

theorem QuiesceInv.parks (h : QuiesceInv ch s tr c) (hch : Canonical ch) (hop : op.Working)
    (hemitted : (quiesceStep dbg ch s op).2 = .progress (.emitted token (.ok ()))) :
  (quiesceStep dbg ch s op).1.pc = .parked token
  := by
  cases op with
  | run doorbell =>
      obtain rfl : doorbell = .ok () := hop
      cases hpc : s.pc with
      | idle =>
          simp only [quiesceStep, Sdk.Thread.step, hpc] at hemitted
          cases hemitted
      | checking =>
          rw [(quiesceStep_poll dbg h.holds hch (Or.inl hpc) _).1] at hemitted
          cases hemitted
      | emitting vnanos token' =>
          obtain ⟨_, _, hparks⟩ := h.runEmit dbg hch hpc
          exact hparks token hemitted
      | parked token' =>
          rw [(quiesceStep_poll dbg h.holds hch (Or.inr ⟨token', hpc⟩) _).1] at hemitted
          cases hemitted
  | emit g vnanos extraFlags ev =>
      simp only [quiesceStep] at hemitted
      split at hemitted
      · cases hemitted
      · cases hemitted
  | _ => cases hemitted

end Stays

/-- After every run the invariant holds of the state and of the trace. -/
theorem QuiesceInv.run (dbg : Bool) {ch : Channel} {s : QuiesceState}
    {tr : List (QuiesceOp × QuiesceAnswer)} {c : Contents} (h : QuiesceInv ch s tr c)
    (hch : Canonical ch) (ops : List QuiesceOp) (hops : ∀ op ∈ ops, op.Working) :
  ∃ c', QuiesceInv ch (Machine.run (quiesceStep dbg ch) s ops).1
    (tr ++ (Machine.run (quiesceStep dbg ch) s ops).2) c'
  := by
  apply Machine.run_induction (P := fun s tr => ∃ c, QuiesceInv ch s tr c) _ ops hops ⟨c, h⟩
  rintro s tr op hop ⟨c, h⟩
  exact h.step hch hop

/-- The records of a prefix do not overlap if those of the list do not. -/
theorem Serial.mono {p : Option UInt64} {recs recs' : List WorkloadCtrl}
    (h : Serial p recs') (hpre : recs <+: recs') :
  Serial p recs
  := by
  induction recs generalizing p recs' with
  | nil => trivial
  | cons rec recs ih =>
      obtain ⟨rest, rfl⟩ := hpre
      have hrest : recs <+: recs ++ rest := List.prefix_append recs rest
      cases rec with
      | quiesceReq token =>
          cases p with
          | none =>
              have hserial : Serial (some token) (recs ++ rest) := h
              exact ih hserial hrest
          | some token' => exact h
      | resume token =>
          have hserial : Serial (awaitedAfter p (.resume token)) (recs ++ rest) := by
            cases p <;> exact h
          cases p <;> exact ih hserial hrest

/-- **Cooperative quiesce.**  On a channel with the canonical rings, after every run of the
host, the agent and a thread of the workload: the requests consumed by the thread are answered
in order, and its parks end with their `Resume`s, exactly when no consumed request lies between
another one and its `Resume`.  The consumed records are the first ones that were sent, and the
`QuiesceReady`s the host has drained, together with those it would drain next, are the published
ones. -/
theorem cooperative_quiesce (dbg : Bool) {ch : Channel} (hch : Canonical ch)
    (hmapped : Mapped ch.gm ch.base)
    (hempty : ∀ ring, ch.gm.bytes.u32 (ringOf ch ring).prod = ch.gm.bytes.u32 (ringOf ch ring).cons)
    (haligned : ∀ ring, (ch.gm.bytes.u32 (ringOf ch ring).cons).toNat % 8 = 0)
    (start : GuestRing → UInt32) (vnanos : UInt64) (ops : List QuiesceOp)
    (hops : ∀ op ∈ ops, op.Working) {s : QuiesceState} {tr : List (QuiesceOp × QuiesceAnswer)}
    (hrun : Machine.run (quiesceStep dbg ch) ⟨⟨⟨ch, [], []⟩, start⟩, vnanos, .idle⟩ ops
      = (s, tr)) :
  (Cooperative dbg ch s tr ↔ Serial none (consumedIn tr)) ∧
    (Serial none (ctrlsSentIn tr) → Cooperative dbg ch s tr) ∧
    consumedIn tr <+: ctrlsSentIn tr ∧
    readiesSeen tr ++ QuiesceAnswer.seen (.drain, (quiesceStep dbg ch s .drain).2) = readiesIn tr
  := by
  have hstart : QuiesceInv ch ⟨⟨⟨ch, [], []⟩, start⟩, vnanos, .idle⟩ [] .empty :=
    ⟨holds_empty start hmapped hempty haligned, rfl, rfl, rfl, rfl⟩
  obtain ⟨c, h⟩ := hstart.run dbg hch ops hops
  rw [hrun, List.nil_append] at h
  have hiff : Cooperative dbg ch s tr ↔ Serial none (consumedIn tr) := by
    rw [← served_eq_iff, ← h.served]
    constructor
    · intro hcoop
      exact hcoop.answered
    · intro hanswered
      exact ⟨hanswered, fun op token _ hpc => h.stays hch hpc,
        fun op token hop hemitted => h.parks hch hop hemitted⟩
  have hpre : consumedIn tr <+: ctrlsSentIn tr := by
    rw [h.sent]
    apply List.prefix_append
  refine ⟨hiff, fun hserial => hiff.mpr (hserial.mono hpre), hpre, ?_⟩
  obtain ⟨h', hdrain, _⟩ := h.holds.drain hch dbg
  rw [← h.seen]
  simp only [quiesceStep, hdrain, QuiesceAnswer.seen, Contents.drainedEvents, List.filterMap_append,
    readies_ringA, List.nil_append]

/-- A request, its `Resume` and the next request. -/
def serialOps : List QuiesceOp :=
  [.pushWorkloadCtrl (.quiesceReq 1), .check, .run (.ok ()), .run (.ok ()),
    .pushWorkloadCtrl (.resume 1), .pushWorkloadCtrl (.quiesceReq 2), .run (.ok ()),
    .run (.ok ()), .run (.ok ()), .drain]

/-- On the canonical channel both requests are answered. -/
theorem cooperative_quiesce_canonical :
  let res := Machine.run (quiesceStep true canonicalChannel)
    ⟨⟨⟨canonicalChannel, [], []⟩, fun _ => 0⟩, 1, .idle⟩ serialOps
  Serial none (ctrlsSentIn res.2) ∧ Cooperative true canonicalChannel res.1 res.2
  := by
  have hsent : ctrlsSentIn (Machine.run (quiesceStep true canonicalChannel)
      ⟨⟨⟨canonicalChannel, [], []⟩, fun _ => 0⟩, 1, .idle⟩ serialOps).2
      = [.quiesceReq 1, .resume 1, .quiesceReq 2] := by
    decide +kernel
  have hops : ∀ op ∈ serialOps, op.Working := by
    simp [serialOps, QuiesceOp.Working]
  dsimp only
  generalize hrun : Machine.run (quiesceStep true canonicalChannel)
    ⟨⟨⟨canonicalChannel, [], []⟩, fun _ => 0⟩, 1, .idle⟩ serialOps = res at hsent ⊢
  obtain ⟨s, tr⟩ := res
  have hserial : Serial none (ctrlsSentIn tr) := by
    rw [hsent]
    simp [Serial, awaitedAfter]
  have h := cooperative_quiesce true canonical_canonicalChannel mapped_canonical
    canonicalChannel_empty canonicalChannel_aligned (fun _ => 0) 1 serialOps hops hrun
  exact ⟨hserial, h.2.1 hserial⟩

/-- Two requests and the `Resume` of the first one, which the host sends before the thread looks
at ring I. -/
def overlappingOps : List QuiesceOp :=
  [.pushWorkloadCtrl (.quiesceReq 1), .pushWorkloadCtrl (.quiesceReq 2),
    .pushWorkloadCtrl (.resume 1), .check, .run (.ok ()), .run (.ok ()), .run (.ok ()),
    .run (.ok ()), .run (.ok ())]

/-- The thread is out of `quiesce_check` and has consumed both requests, but only the first one
is answered. -/
theorem overlapping_request_lost :
  let res := Machine.run (quiesceStep true canonicalChannel)
    ⟨⟨⟨canonicalChannel, [], []⟩, fun _ => 0⟩, 1, .idle⟩ overlappingOps
  (∀ op ∈ overlappingOps, op.Working) ∧ res.1.pc = .idle ∧
    requestsIn (consumedIn res.2) = [1, 2] ∧ readiesIn res.2 = [1] ∧
    ¬ Cooperative true canonicalChannel res.1 res.2
  := by
  have hpc : (Machine.run (quiesceStep true canonicalChannel)
      ⟨⟨⟨canonicalChannel, [], []⟩, fun _ => 0⟩, 1, .idle⟩ overlappingOps).1.pc = .idle := by
    decide +kernel
  have hrequests : requestsIn (consumedIn (Machine.run (quiesceStep true canonicalChannel)
      ⟨⟨⟨canonicalChannel, [], []⟩, fun _ => 0⟩, 1, .idle⟩ overlappingOps).2) = [1, 2] := by
    decide +kernel
  have hreadies : readiesIn (Machine.run (quiesceStep true canonicalChannel)
      ⟨⟨⟨canonicalChannel, [], []⟩, fun _ => 0⟩, 1, .idle⟩ overlappingOps).2 = [1] := by
    decide +kernel
  refine ⟨?_, hpc, hrequests, hreadies, ?_⟩
  · simp [overlappingOps, QuiesceOp.Working]
  · intro hcoop
    have hanswered := hcoop.answered
    rw [hpc, hrequests, hreadies] at hanswered
    cases hanswered

end Protocol
