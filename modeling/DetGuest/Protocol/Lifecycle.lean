import DetGuest.Protocol.Supervision

/-!
# The life of the workload

The `WorkloadStarted` and `WorkloadExited` events of ring A tell one life after the other.  Each
end is told with the status with which the child ended, unless an immediate shutdown finds a
child that has already ended.
-/

namespace Protocol

open Wire Agent

/-! ### Lives as events tell them -/

/-- The process that lives after an event, if the event may come now. -/
def lifeAfter (living : Option UInt32) : EventPayload → Option (Option UInt32)
  | .workloadStarted pid _ => if living = none then some (some pid) else none
  | .workloadExited pid _ _ => if living = some pid then some none else none
  | _ => some living

/-- Starts and exits alternate, and each exit is that of the process started last. -/
def Alternates (evs : List EventPayload) : Prop :=
  (evs.foldlM lifeAfter none).isSome = true

/-- The exits of a sequence of events. -/
def exits (evs : List EventPayload) : List (UInt32 × Int32 × Int32) :=
  evs.filterMap fun
    | .workloadExited pid code sig => some (pid, code, sig)
    | _ => none

/-- The exit that tells the end of a child. -/
def exitOf (child : Int32 × ExitStatus) : UInt32 × Int32 × Int32 :=
  (child.1.toUInt32, Supervisor.ExitStatus.fields child.2)

/-- The events so far tell one life after the other, at most one child is supervised, and the
ends are told as they came. -/
structure LivesTold {ρ : Type} (s : SuperviseState ρ) : Prop where
  alternates : Alternates (s.sup.emitted.map Emission.ev)
  one : (own s.sup.kernel.children).length ≤ 1
  told : exits (s.sup.emitted.map Emission.ev) <+: s.sup.kernel.ended.map exitOf

/-- An immediate shutdown finds the workload alive, or killed by `SIGKILL`. -/
def FindsAlive {ρ : Type} (s : SuperviseState ρ) (op : SuperviseOp) : Prop :=
  op = .command (.shutdown .immediate) → s.done = false → ∀ w, s.sup.workload = some w →
    ∀ c ∈ s.sup.kernel.children, c.pid = w.pid → ∀ status, c.state = .ended status →
      status = .signaled sigkill

/-! ### The invariant -/

/-- The child has ended. -/
def zombie (c : Child) : Option (Int32 × ExitStatus) :=
  match c.state with
  | .ended status => some (c.pid, status)
  | _ => none

/-- The workload is the only child of the agent's own, it lives after the events so far, and the
ends are told but for the one that is not reported yet. -/
structure Lives (v : Supervisor.View) : Prop extends Owned v where
  events : v.notices.foldlM lifeAfter none = some (v.workload.map fun w => w.1.toUInt32)
  told : v.kernel.ended.map exitOf
    = exits v.notices ++ ((own v.kernel.children).filterMap zombie).map exitOf

theorem endings_eq (f : Child → Child) (children : List Child) :
  endings f children
    = (own children).filterMap fun c => if (zombie c).isSome then none
        else (zombie (f c)).map fun child => (c.pid, child.2)
  := by
  rw [own, List.filterMap_filter, endings]
  congr 1
  funext c
  obtain ⟨pid, state, unreported, adopted⟩ := c
  cases adopted with
  | true => rfl
  | false =>
      cases state with
      | ended status => rfl
      | running => cases hf : (f ⟨pid, .running, unreported, false⟩).state <;> simp [zombie, hf]
      | stopped => cases hf : (f ⟨pid, .stopped, unreported, false⟩).state <;> simp [zombie, hf]

/-- What ends is a new zombie, if there is at most one child. -/
theorem zombies_map {f : Child → Child} (hf : Survives f) {children : List Child}
    (hone : (own children).length ≤ 1) :
  (own (children.map f)).filterMap zombie
    = (own children).filterMap zombie ++ endings f children
  := by
  rw [own_map hf, endings_eq]
  rcases hcase : own children with _ | ⟨c, _ | ⟨d, rest⟩⟩
  · rfl
  · simp only [List.map_cons, List.map_nil, List.filterMap_cons, List.filterMap_nil]
    cases hzombie : zombie c with
    | some child =>
        have hsame : f c = c := by
          rw [zombie] at hzombie
          split at hzombie
          next hstate => exact hf.ended c _ hstate
          next => cases hzombie
        simp [hsame, hzombie]
    | none =>
        have hpid := hf.pid c
        cases hend : zombie (f c) with
        | none => simp
        | some child =>
            have hfst : child.1 = c.pid := by
              rw [zombie] at hend
              split at hend
              · cases hend
                exact hpid
              · cases hend
            simp [← hfst]
  · rw [hcase] at hone
    simp at hone

section Steps

variable {v : Supervisor.View}

/-- The children change. -/
theorem Lives.change {f : Child → Child} (h : Lives v) (hf : Survives f) :
  Lives { v with kernel := v.kernel.change f }
  := by
  refine ⟨h.toOwned.change hf, h.events, ?_⟩
  rw [Kernel.change]
  dsimp only
  rw [List.map_append, h.told, zombies_map hf h.length_own, List.map_append, List.append_assoc]

theorem Lives.kill (h : Lives v) (pid : Int32) (sig : Signal) :
  Lives { v with kernel := v.kernel.kill pid sig }
  := h.change (survives_signal pid sig)

/-- What is not of the kernel, the workload's process and the events does not matter. -/
theorem Lives.congr {v' : Supervisor.View} (h : Lives v) (hkernel : v'.kernel = v.kernel)
    (hworkload : v'.workload.map Prod.fst = v.workload.map Prod.fst)
    (hnotices : v'.notices = v.notices) :
  Lives v'
  := by
  have hmap : (v'.workload.map fun w => w.1.toUInt32) = v.workload.map fun w => w.1.toUInt32 := by
    have hcomp := congrArg (Option.map Int32.toUInt32) hworkload
    rw [Option.map_map, Option.map_map] at hcomp
    exact hcomp
  refine ⟨h.toOwned.congr hkernel hworkload, ?_, ?_⟩
  · rw [hnotices, hmap]
    exact h.events
  · rw [hkernel, hnotices]
    exact h.told

/-- An event about a quiesce. -/
theorem Lives.quiesceReady (h : Lives v) (token : UInt64) :
  Lives { v with notices := v.notices ++ [.quiesceReady token] }
  := by
  refine ⟨h.toOwned.congr rfl rfl, ?_, ?_⟩
  · rw [List.foldlM_append, h.events]
    rfl
  · rw [h.told]
    simp [exits]

theorem Lives.signal (h : Lives v) (sig : Signal) :
  Lives (v.signal sig)
  := by
  cases hw : v.workload with
  | none =>
      simp only [Supervisor.View.signal, hw]
      exact h
  | some w =>
      simp only [Supervisor.View.signal, hw]
      exact (h.kill w.1 sig).congr rfl (by simp [hw]) rfl

theorem Lives.forced (h : Lives v) (token : UInt64) :
  Lives (v.forced token)
  := by
  cases hw : v.workload with
  | none =>
      simp only [Supervisor.View.forced, hw]
      exact (h.quiesceReady token).congr rfl (by simp [hw]) rfl
  | some w =>
      simp only [Supervisor.View.forced, hw]
      exact (h.signal .stop).congr rfl rfl rfl

theorem Lives.resumed (h : Lives v) :
  Lives v.resumed
  := by
  rw [Supervisor.View.resumed]
  split
  next pid hw => exact (h.signal .cont).congr rfl (by simp [Supervisor.View.signal, hw]) rfl
  next => exact h

/-- A new child that is not the agent's own. -/
theorem Lives.adopt {pid : Int32} {kernel : Kernel} (h : Lives v)
    (hadd : v.kernel.add true = some (pid, kernel)) :
  Lives { v with kernel }
  := by
  obtain ⟨hown, howned⟩ := h.toOwned.adopt hadd
  refine ⟨howned, h.events, ?_⟩
  rw [hown]
  obtain ⟨rfl, _⟩ := Kernel.add_eq_some hadd
  exact h.told

/-- The agent starts a child when there is no workload. -/
theorem Lives.started {pid : Int32} {kernel : Kernel} (h : Lives v) (hw : v.workload = none)
    (hfork : v.kernel.fork = some (pid, kernel)) (unit : UInt32) :
  Lives (v.started pid kernel unit)
  := by
  obtain ⟨hnone, hown, howned⟩ := h.toOwned.started hw hfork unit
  have hended : kernel.ended = v.kernel.ended := by
    obtain ⟨rfl, _⟩ := Kernel.add_eq_some hfork
    rfl
  refine ⟨howned, ?_, ?_⟩
  · rw [Supervisor.View.started]
    dsimp only
    rw [List.foldlM_append, h.events, hw]
    rfl
  · rw [Supervisor.View.started]
    dsimp only
    rw [hended, h.told, hnone, hown]
    simp [exits, zombie]

/-- The report of a stop. -/
theorem Lives.stopSeen {front back : List Child} {c : Child} (h : Lives v)
    (hsplit : v.kernel.children = front ++ c :: back) (hstate : c.state = .stopped) :
  Lives (v.stopSeen front c back)
  := by
  have howned := h.toOwned.stopSeen hsplit hstate
  have hzombies : ((own (front ++ { c with unreported := false } :: back)).filterMap zombie)
      = (own v.kernel.children).filterMap zombie := by
    rw [hsplit, own, own, List.filterMap_filter, List.filterMap_filter, List.filterMap_append,
      List.filterMap_append, List.filterMap_cons, List.filterMap_cons]
    rfl
  rw [Supervisor.View.stopSeen] at howned ⊢
  split at howned
  next hpid =>
    rw [if_pos hpid]
    obtain ⟨w, hw, hwpid⟩ := Option.map_eq_some_iff.mp hpid
    refine ⟨howned, ?_, ?_⟩
    · dsimp only
      rw [List.foldlM_append, h.events, hw, Option.map_some, hwpid]
      rfl
    · dsimp only
      rw [hzombies, h.told]
      simp [exits]
  next hpid =>
    rw [if_neg hpid]
    refine ⟨howned, h.events, ?_⟩
    dsimp only
    rw [hzombies]
    exact h.told

/-- The report of an end.  The status of a workload is that of its child. -/
theorem Lives.endSeen {front back : List Child} {c : Child} {status : ExitStatus} (h : Lives v)
    (hsplit : v.kernel.children = front ++ c :: back) (hstate : c.state = .ended status) :
  Lives (v.endSeen front c back status)
  := by
  obtain ⟨hmine, hother, howned⟩ := h.toOwned.endSeen hsplit status
  rw [Supervisor.View.endSeen] at howned ⊢
  split at howned
  next hpid =>
    rw [if_pos hpid]
    obtain ⟨hown, hrest⟩ := hmine hpid
    obtain ⟨w, hw, hwpid⟩ := Option.map_eq_some_iff.mp hpid
    refine ⟨howned, ?_, ?_⟩
    · dsimp only
      rw [List.foldlM_append, h.events, hw, Option.map_some, hwpid]
      simp [lifeAfter]
    · dsimp only
      rw [h.told, hown, hrest]
      simp [exits, zombie, hstate, exitOf]
  next hpid =>
    rw [if_neg hpid]
    refine ⟨howned, h.events, ?_⟩
    dsimp only
    rw [hother hpid]
    exact h.told

/-- An immediate shutdown that finds the workload alive or killed. -/
theorem Lives.killed (h : Lives v) (halive : ∀ pid b, v.workload = some (pid, b) →
    ∀ c ∈ v.kernel.children, c.pid = pid → ∀ status, c.state = .ended status →
      status = .signaled sigkill) :
  Lives v.killed
  := by
  cases hw : v.workload with
  | none =>
      simp only [Supervisor.View.killed, hw]
      exact h
  | some w =>
      obtain ⟨d, hd, hdpid, front, c, back, hsplit, hcpid, hstate, hkilled⟩ := h.killed_eq hw
      have hstatus : statusOfKill d = .signaled sigkill := by
        rw [statusOfKill]
        split
        next status hended => exact halive w.1 w.2 hw d hd hdpid status hended
        next => rfl
      have hseen := (h.signal .kill).endSeen hsplit hstate
      rw [hkilled]
      refine hseen.congr rfl rfl ?_
      have hw' : (v.signal .kill).workload.map Prod.fst = some c.pid := by
        simp only [Supervisor.View.signal, hw, Option.map_some, hcpid]
      rw [Supervisor.View.endSeen, if_pos hw', hstatus]
      simp only [Supervisor.View.signal, hw, hcpid]
      rfl

theorem Lives.reaped {v' : Supervisor.View} {front back : List Child} {c : Child} (h : Lives v)
    (hreaped : v.Reaped v' front c back) :
  Lives v'
  := by
  rcases hreaped.effect with ⟨hstate, rfl⟩ | ⟨status, hstate, rfl⟩
  · exact h.stopSeen hreaped.split hstate
  · exact h.endSeen hreaped.split hstate

theorem Lives.reaps {v' : Supervisor.View} (hreaps : v.Reaps v') (h : Lives v) :
  Lives v'
  := by
  induction hreaps with
  | done _ => exact h
  | more hreaped _ ih => exact ih (h.reaped hreaped)

/-- Every operation, if an immediate shutdown finds the workload alive or killed. -/
theorem Lives.moves {v' : Supervisor.View} {op : SuperviseOp} (h : Lives v) (hmoves : Moves op v v')
    (halive : op = .command (.shutdown .immediate) → ∀ pid b, v.workload = some (pid, b) →
      ∀ c ∈ v.kernel.children, c.pid = pid → ∀ status, c.state = .ended status →
        status = .signaled sigkill) :
  Lives v'
  := by
  cases op with
  | command cmd =>
      cases cmd with
      | startWorkload unit logMask =>
          rcases hmoves with rfl | ⟨pid, kernel, hw, hfork, rfl⟩
          · exact h
          · exact h.started hw hfork unit
      | quiesce token mode =>
          cases mode with
          | coop =>
              obtain rfl : v' = v := hmoves
              exact h
          | forced =>
              obtain rfl : v' = v.forced token := hmoves
              exact h.forced token
      | resume token =>
          obtain rfl : v' = v.resumed := hmoves
          exact h.resumed
      | shutdown mode =>
          cases mode with
          | graceful =>
              obtain rfl : v' = v.signal .term := hmoves
              exact h.signal .term
          | immediate =>
              obtain rfl : v' = v.killed := hmoves
              exact h.killed (halive rfl)
      | setLogMask mask =>
          obtain rfl : v' = v := hmoves
          exact h
      | reverifyRegions =>
          obtain rfl : v' = v := hmoves
          exact h
  | reap => exact h.reaps hmoves
  | reapWorkload =>
      rcases hmoves with ⟨rfl, _⟩ | ⟨front, c, back, _, hreaped⟩
      · exact h
      · exact h.reaped hreaped
  | sweep =>
      rcases hmoves with rfl | rfl
      · exact h
      · exact h.signal .kill
  | exit pid status =>
      obtain rfl : v' = { v with kernel := v.kernel.exit pid status } := hmoves
      exact h.change (survives_exit pid status)
  | stop pid =>
      obtain rfl : v' = { v with kernel := v.kernel.kill pid .stop } := hmoves
      exact h.kill pid .stop
  | nextPid pid =>
      obtain rfl : v' = { v with kernel := { v.kernel with nextPid := pid } } := hmoves
      exact ⟨⟨h.distinct, h.one, h.waiting⟩, h.events, h.told⟩
  | adopt =>
      rcases hmoves with rfl | ⟨pid, kernel, hadd, rfl⟩
      · exact h
      · exact h.adopt hadd
  | pipe pipe | regions | clock now | print pipe bytes =>
      obtain rfl : v' = v := hmoves
      exact h

/-- An immediate shutdown that finds the workload ended in another way tells another end. -/
theorem Lives.mistold {pid : Int32} {b : Bool} {c : Child} {status : ExitStatus} (h : Lives v)
    (hw : v.workload = some (pid, b)) (hc : c ∈ v.kernel.children) (hpid : c.pid = pid)
    (hstate : c.state = .ended status) (hstatus : status ≠ .signaled sigkill) :
  ¬ exits v.killed.notices <+: v.killed.kernel.ended.map exitOf
  := by
  obtain ⟨d, hd, hdpid, front, e, back, hsplit, hepid, hestate, hkilled⟩ := h.killed_eq hw
  obtain rfl : c = d := List.inj_on_of_nodup_map h.distinct hc hd (hpid.trans hdpid.symm)
  have hkill : statusOfKill c = status := by rw [statusOfKill, hstate]
  rw [hkill] at hestate hkilled
  have htold := ((h.signal .kill).endSeen hsplit hestate).told
  have hnotices : ((v.signal .kill).endSeen front e back status).notices
      = v.notices ++ [.workloadExited pid.toUInt32 (Supervisor.ExitStatus.fields status).1
          (Supervisor.ExitStatus.fields status).2] := by
    have hw' : (v.signal .kill).workload.map Prod.fst = some e.pid := by
      simp only [Supervisor.View.signal, hw, Option.map_some, hepid]
    rw [Supervisor.View.endSeen, if_pos hw', hepid]
    simp only [Supervisor.View.signal, hw]
  rw [hkilled]
  dsimp only
  rw [htold, hnotices, exits, exits, List.filterMap_append, List.filterMap_append,
    List.append_assoc, List.prefix_append_right_inj]
  intro hpre
  simp only [List.filterMap_cons, List.filterMap_nil, List.cons_append, List.cons_prefix_cons,
    Prod.mk.injEq] at hpre
  obtain ⟨⟨_, hcode, hsig⟩, _⟩ := hpre
  cases status with
  | exited code => cases hsig
  | signaled sig => exact hstatus (congrArg _ hsig.symm)

end Steps

/-! ### Every run -/

/-- Only notable events tell of lives. -/
theorem foldlM_notable (evs : List EventPayload) (living : Option UInt32) :
  (evs.filter notable).foldlM lifeAfter living = evs.foldlM lifeAfter living
  := by
  induction evs generalizing living with
  | nil => rfl
  | cons ev evs ih =>
      cases hev : notable ev with
      | true =>
          rw [List.filter_cons_of_pos hev, List.foldlM_cons, List.foldlM_cons]
          congr 1
          funext next
          exact ih next
      | false =>
          have hskip : lifeAfter living ev = some living := by
            cases ev <;> first | rfl | cases hev
          rw [List.filter_cons_of_neg (by simp [hev]), List.foldlM_cons, hskip, ih]
          rfl

theorem exits_notable (evs : List EventPayload) :
  exits (evs.filter notable) = exits evs
  := by
  rw [exits, exits, List.filterMap_filter]
  congr 1
  funext ev
  cases ev <;> rfl

section Runs

variable {ρ : Type} (server : RegionServer ρ)

theorem Lives.livesTold {s : SuperviseState ρ} (h : Lives s.sup.view) : LivesTold s := by
  have hevents := h.events
  have htold := h.told
  simp only [Supervisor.view] at hevents htold
  rw [foldlM_notable] at hevents
  rw [exits_notable] at htold
  refine ⟨?_, h.length_own, ?_⟩
  · rw [Alternates, hevents]
    rfl
  · rw [htold]
    exact List.prefix_append _ _

/-- **The life of the workload.**  In every run of the supervise loop from a fresh supervisor, all
states tell the lives of the workload as they were exactly when each immediate shutdown finds the
workload alive or killed by `SIGKILL`. -/
theorem lives_told (units : List BootUnit) (pid : Int32) (regionIpc : Option ρ) (now : UInt64)
    (ops : List SuperviseOp) :
  let start : SuperviseState ρ := ⟨.new units ⟨[], pid, []⟩ regionIpc now, [], false⟩
  (∀ front, front <+: ops → LivesTold (supervise server start front)) ↔
    ∀ front op, front ++ [op] <+: ops → FindsAlive (supervise server start front) op
  := by
  intro start
  have hstart : Lives start.sup.view := by
    refine ⟨⟨List.nodup_nil, rfl, ?_⟩, rfl, rfl⟩
    intro c hc
    cases hc
  refine Machine.always_iff (J := fun s => Lives s.sup.view) (C := FindsAlive) hstart ?_ ?_ ?_ ops
  · intro s h
    exact h.livesTold
  · intro s op h halive
    rcases superviseStep_cases server s op with ⟨_, _, hsame⟩ | ⟨hdone, hmoves, _⟩
    · rw [hsame]
      exact h
    · apply h.moves hmoves
      intro hop pid b hw c hc hpid
      obtain ⟨w, hw', rfl, _⟩ := view_workload.mp hw
      exact halive hop (hdone (by rw [hop]; rfl)) w hw' c hc hpid
  · intro s op h hnot htold
    rw [FindsAlive] at hnot
    push Not at hnot
    obtain ⟨rfl, hdone, w, hw, c, hc, hpid, status, hstate, hstatus⟩ := hnot
    obtain ⟨hmoves, _⟩ := moves_superviseStep server hdone (.command (.shutdown .immediate))
    have hview : s.sup.view.workload = some (w.pid, w.stopped) :=
      view_workload.mpr ⟨w, hw, rfl, rfl⟩
    have hkilled : _ = s.sup.view.killed := hmoves
    apply h.mistold hview hc hpid hstate hstatus
    rw [← hkilled]
    have hexits := htold.told
    rw [← exits_notable] at hexits
    exact hexits

end Runs

/-- The workload exits, and an immediate shutdown is handled before the reap. -/
def lateShutdownOps : List SuperviseOp :=
  [.command (.startWorkload 0 31), .exit 100 (.exited 0), .command (.shutdown .immediate)]

/-- The exit is told as a kill. -/
theorem late_shutdown_mistold :
  ¬ LivesTold (supervise noRegions ⟨.new [⟨0, 31⟩] ⟨[], 100, []⟩ none 0, [], false⟩
    lateShutdownOps)
  := by
  intro h
  have htold := h.told
  revert htold
  decide +kernel

end Protocol
