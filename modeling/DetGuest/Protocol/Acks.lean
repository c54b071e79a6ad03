import DetGuest.Protocol.Supervision

/-!
# Acknowledgements of forced quiesces

A ledger follows a run of the supervise loop: a forced quiesce is entered when it is handled, and
a `QuiesceReady` must strike out one of the entries.  The ledger closes at the first event or
signal that it cannot account for.
-/

namespace Protocol

open Wire Agent

/-! ### The ledger -/

/-- The tokens of the forced quiesces that are not acknowledged: those of the present workload,
and those of workloads that have exited. -/
structure Ledger where
  live : List UInt64
  dead : List UInt64

/-- A forced quiesce is entered. -/
def Ledger.command (l : Ledger) : Command → Ledger
  | .quiesce token .forced => { l with live := l.live ++ [token] }
  | _ => l

/-- A `QuiesceReady` strikes out an entry, and an exit leaves the entries of its workload
behind. -/
def Ledger.event (l : Ledger) : EventPayload → Option Ledger
  | .quiesceReady token =>
      if token ∈ l.live then some { l with live := l.live.erase token }
      else if token ∈ l.dead then some { l with dead := l.dead.erase token }
      else none
  | .workloadExited .. => some ⟨[], l.dead ++ l.live⟩
  | _ => some l

/-- The forced quiesce in effect behind a command: the last one that was handled. -/
def effectAfter (effect : Option UInt64) : Command → Option UInt64
  | .quiesce token .forced => some token
  | _ => effect

/-- The token of the forced quiesce in effect. -/
def inEffect (cmds : List Command) : Option UInt64 := cmds.foldl effectAfter none

/-- Whether a `SIGCONT` is among signals. -/
def continues (signals : List (Int32 × Signal)) : Bool := signals.any fun sig => sig.2 = .cont

/-- Whether commands are a `Resume` with a token. -/
def resumes (effect : Option UInt64) : List Command → Bool
  | [.resume token] => effect = some token
  | _ => false

/-- The ledger after a step: the commands it handled are entered, and its events are accounted
for.  A `SIGCONT` must answer a `Resume` with the token in effect. -/
def Ledger.audit (l : Ledger) (effect : Option UInt64) (cmds : List Command)
    (signals : List (Int32 × Signal)) (notices : List EventPayload) : Option Ledger :=
  if continues signals = true ∧ resumes effect cmds = false then none
  else notices.foldlM Ledger.event (cmds.foldl Ledger.command l)

/-- A state of the supervise loop and the ledger that has followed the run, unless it closed. -/
structure Audited (ρ : Type) where
  state : SuperviseState ρ
  ledger : Option Ledger

/-- One operation, and the entries for what it has added. -/
def auditStep {ρ : Type} (server : RegionServer ρ) (a : Audited ρ) (op : SuperviseOp) :
    Audited ρ :=
  let next := superviseStep server a.state op
  { state := next
    ledger := a.ledger.bind fun l => l.audit (inEffect a.state.handled)
      (next.handled.drop a.state.handled.length)
      (next.sup.signals.drop a.state.sup.signals.length)
      (next.sup.view.notices.drop a.state.sup.view.notices.length) }

/-- A report about the workload is outstanding. -/
def ReportOutstanding {ρ : Type} (s : SuperviseState ρ) : Prop :=
  ∃ w, s.sup.workload = some w ∧ ∃ c ∈ s.sup.kernel.children, c.pid = w.pid ∧ c.report ≠ none

/-- The ledger is open, and entries of the workload that are left have a report to come. -/
def Accounted {ρ : Type} (a : Audited ρ) : Prop :=
  ∃ l, a.ledger = some l ∧ (l.live ≠ [] → ReportOutstanding a.state)

/-- What an operation of the loop must find: a reap that takes the report of a stop finds one
forced quiesce of the workload to acknowledge, or none and the last one left behind by an exit; a
forced quiesce finds no workload whose stop was reported; and a `Resume` after a stop was seen
carries the last token. -/
structure Attributable {ρ : Type} (a : Audited ρ) (op : SuperviseOp) : Prop where
  reap : op = .reap ∨ op = .reapWorkload → a.state.done = false → StopPending a.state →
    ∀ l, a.ledger = some l →
      l.live.length = 1 ∨ (l.live = [] ∧ a.state.sup.forcedToken ∈ l.dead)
  forced : ∀ token, op = .command (.quiesce token .forced) → a.state.done = false →
    WorkloadStopped a.state → StopPending a.state
  resume : ∀ token, op = .command (.resume token) → a.state.done = false →
    ∀ w, a.state.sup.workload = some w → w.stopped = true → token = a.state.sup.forcedToken

/-! ### The invariant -/

/-- How the state of the workload's child fits the flag of a seen stop and the entries. -/
def Fits (c : Child) (seen : Bool) (live : List UInt64) : Prop :=
  match c.state with
  | .running => seen = false ∧ live = []
  | .stopped => if c.unreported then seen = false else seen = true ∧ live = []
  | .ended _ => True

/-- The entries fit the workload, and the last of them is the token in effect. -/
structure Acked (v : Supervisor.View) (l : Ledger) (effect : Option UInt64) : Prop
    extends Owned v where
  forced : l.live ≠ [] ∨ l.dead ≠ [] → effect = some v.token
  latest : ∀ token, l.live.getLast? = some token → token = v.token
  idle : v.workload = none → l.live = []
  fits : ∀ pid seen, v.workload = some (pid, seen) → ∀ c ∈ v.kernel.children, c.pid = pid →
    Fits c seen l.live
  seen : ∀ pid, v.workload = some (pid, true) → effect = some v.token

/-- What a reap must find. -/
def ReapFinds (v : Supervisor.View) (l : Ledger) : Prop :=
  StopToCome v.kernel v.workload → l.live.length = 1 ∨ (l.live = [] ∧ v.token ∈ l.dead)

section Steps

variable {v v' : Supervisor.View} {l : Ledger} {effect : Option UInt64}

/-- Entries that are left have a report to come. -/
theorem Acked.outstanding (h : Acked v l effect) (hlive : l.live ≠ []) :
  ∃ pid seen, v.workload = some (pid, seen) ∧ ∃ c ∈ v.kernel.children, c.pid = pid ∧
    c.report ≠ none
  := by
  cases hw : v.workload with
  | none => exact absurd (h.idle hw) hlive
  | some w =>
      obtain ⟨c, hc, hpid⟩ := h.child hw
      refine ⟨w.1, w.2, rfl, c, hc, hpid, ?_⟩
      have hfits := h.fits w.1 w.2 hw c hc hpid
      cases hstate : c.state with
      | running =>
          simp only [Fits, hstate] at hfits
          exact absurd hfits.2 hlive
      | stopped =>
          cases hunreported : c.unreported with
          | true => simp [Child.report, hstate, hunreported]
          | false =>
              simp only [Fits, hstate, hunreported] at hfits
              exact absurd hfits.2 hlive
      | ended status => simp [Child.report, hstate, h.waiting c hc status hstate]

/-- The children change in a way that keeps the fit. -/
theorem Acked.change {f : Child → Child} (h : Acked v l effect) (hf : Survives f)
    (hfits : ∀ c seen, Fits c seen l.live → Fits (f c) seen l.live) :
  Acked { v with kernel := v.kernel.change f } l effect
  := by
  refine ⟨h.toOwned.change hf, h.forced, h.latest, h.idle, ?_, h.seen⟩
  intro pid seen hw c hc hpid
  obtain ⟨d, hd, rfl⟩ := List.mem_map.mp hc
  exact hfits d seen (h.fits pid seen hw d hd ((hf.pid d).symm.trans hpid))

theorem fits_signal {c : Child} {seen : Bool} {live : List UInt64} (h : Fits c seen live)
    (pid : Int32) {sig : Signal} (hsig : sig = .term ∨ sig = .kill) :
  Fits (if c.pid = pid then c.signal sig else c) seen live
  := by
  split
  · obtain ⟨cpid, state, unreported, adopted⟩ := c
    rcases hsig with rfl | rfl
    · exact h
    · cases state <;> exact trivial
  · exact h

theorem fits_stop {c : Child} {seen : Bool} {live : List UInt64} (h : Fits c seen live)
    (pid : Int32) :
  Fits (if c.pid = pid then c.signal .stop else c) seen live
  := by
  split
  · obtain ⟨cpid, state, unreported, adopted⟩ := c
    cases state with
    | running => exact h.1
    | stopped => exact h
    | ended status => exact h
  · exact h

theorem fits_exit {c : Child} {seen : Bool} {live : List UInt64} (h : Fits c seen live)
    (pid : Int32) (status : ExitStatus) :
  Fits (if c.pid = pid ∧ c.state = .running then
    { c with state := .ended status, unreported := true } else c) seen live
  := by
  split
  · exact trivial
  · exact h

theorem fits_cont {c : Child} {live : List UInt64} (h : Fits c true live) :
  Fits (c.signal .cont) false live
  := by
  obtain ⟨pid, state, unreported, adopted⟩ := c
  cases state with
  | running => cases h.1
  | stopped =>
      cases unreported with
      | true => cases h
      | false => exact ⟨rfl, h.2⟩
  | ended status => exact trivial

/-- Signals that stop and continue nothing. -/
theorem Acked.signal (h : Acked v l effect) {sig : Signal} (hsig : sig = .term ∨ sig = .kill) :
  Acked (v.signal sig) l effect
  := by
  cases hw : v.workload with
  | none =>
      simp only [Supervisor.View.signal, hw]
      exact h
  | some w =>
      have hchange := h.change (survives_signal w.1 sig) fun c seen hc => fits_signal hc w.1 hsig
      have hsame : v.signal sig = { v with
          kernel := v.kernel.kill w.1 sig, signals := v.signals ++ [(w.1, sig)] } := by
        simp only [Supervisor.View.signal, hw]
      rw [hsame]
      exact ⟨hchange.toOwned.congr rfl rfl, h.forced, h.latest, h.idle, hchange.fits, h.seen⟩

/-- A child that is not the workload does not matter. -/
theorem Acked.add {pid : Int32} {kernel : Kernel} {adopted : Bool} (h : Acked v l effect)
    (hadd : v.kernel.add adopted = some (pid, kernel)) (howned : Owned { v with kernel }) :
  Acked { v with kernel } l effect
  := by
  refine ⟨howned, h.forced, h.latest, h.idle, ?_, h.seen⟩
  obtain ⟨rfl, hfree⟩ := Kernel.add_eq_some hadd
  intro wpid seen hw c hc hcpid
  rcases List.mem_append.mp hc with hc | hc
  · exact h.fits wpid seen hw c hc hcpid
  · obtain ⟨d, hd, hdpid⟩ := h.child hw
    rw [List.mem_singleton] at hc
    subst hc
    exact absurd (hdpid.trans hcpid.symm) (hfree d hd)

/-- A new workload runs and has no entries. -/
theorem Acked.started {pid : Int32} {kernel : Kernel} (h : Acked v l effect)
    (hw : v.workload = none) (hfork : v.kernel.fork = some (pid, kernel)) (unit : UInt32) :
  Acked (v.started pid kernel unit) l effect
  := by
  obtain ⟨_, _, howned⟩ := h.toOwned.started hw hfork unit
  refine ⟨howned, h.forced, h.latest, fun hnone => absurd hnone (by simp [Supervisor.View.started]),
    ?_, ?_⟩
  · obtain ⟨rfl, hfree⟩ := Kernel.add_eq_some hfork
    intro wpid seen heq c hc hcpid
    cases heq
    rcases List.mem_append.mp hc with hc | hc
    · exact absurd hcpid (hfree c hc)
    · rw [List.mem_singleton] at hc
      subst hc
      exact ⟨rfl, h.idle hw⟩
  · intro wpid heq
    cases heq

/-- The workload is gone, and its entries are left behind. -/
theorem Acked.gone (h : Acked v l effect) (howned : Owned v') (htoken : v'.token = v.token)
    (hw : v'.workload = none) :
  Acked v' ⟨[], l.dead ++ l.live⟩ effect
  := by
  refine ⟨howned, ?_, ?_, fun _ => rfl, ?_, ?_⟩
  · intro hsome
    rw [htoken]
    apply h.forced
    rcases hsome with hlive | hdead
    · exact absurd rfl hlive
    · cases hd : l.dead with
      | nil =>
          left
          simpa [hd] using hdead
      | cons token rest => exact Or.inr (List.cons_ne_nil _ _)
  · intro token hlast
    cases hlast
  · intro pid seen hsome
    rw [hw] at hsome
    cases hsome
  · intro pid hsome
    rw [hw] at hsome
    cases hsome

/-- The single entry of the workload is the token of the last forced quiesce. -/
theorem Acked.live_eq (h : Acked v l effect) (hone : l.live.length = 1) :
  l.live = [v.token]
  := by
  obtain ⟨token, htoken⟩ := List.length_eq_one_iff.mp hone
  have hlatest := h.latest token (by rw [htoken]; rfl)
  rw [htoken, hlatest]

/-- The report of a stop of the workload strikes out the entry that it finds. -/
theorem Acked.stopSeen {front back : List Child} {c : Child} (h : Acked v l effect)
    (hsplit : v.kernel.children = front ++ c :: back) (hunreported : c.unreported = true)
    (hstate : c.state = .stopped) (hpid : v.workload.map Prod.fst = some c.pid)
    (hfinds : ReapFinds v l) :
  ∃ l', l.event (.quiesceReady v.token) = some l' ∧ l'.live = [] ∧
    Acked (v.stopSeen front c back) l' effect
  := by
  have howned := h.toOwned.stopSeen hsplit hstate
  obtain ⟨w, hw, hwpid⟩ := Option.map_eq_some_iff.mp hpid
  have hcome : StopToCome v.kernel v.workload :=
    ⟨w.1, w.2, hw, c, by simp [hsplit], hwpid.symm, hstate, hunreported⟩
  obtain ⟨hothers, _⟩ := h.distinct.of_split hsplit
  have hview : v.stopSeen front c back = { v with
      kernel := { v.kernel with children := front ++ { c with unreported := false } :: back }
      workload := some (c.pid, true)
      notices := v.notices ++ [.quiesceReady v.token] } := by
    rw [Supervisor.View.stopSeen, if_pos hpid]
  -- whatever entry is struck out, none of the workload's is left
  have hend : ∀ l' : Ledger, l'.live = [] → effect = some v.token →
      Acked (v.stopSeen front c back) l' effect := by
    intro l' hlive heffect
    refine ⟨howned, ?_, ?_, fun _ => hlive, ?_, ?_⟩
    · intro _
      rw [hview]
      exact heffect
    · intro token hlast
      rw [hlive] at hlast
      cases hlast
    · rw [hview]
      intro pid seen heq d hd hdpid
      cases heq
      rw [List.mem_append, List.mem_cons] at hd
      rcases hd with hd | rfl | hd
      · exact absurd hdpid (hothers d (by simp [hd]))
      · simp only [Fits, hstate]
        exact ⟨trivial, hlive⟩
      · exact absurd hdpid (hothers d (by simp [hd]))
    · intro _ _
      rw [hview]
      exact heffect
  rcases hfinds hcome with hone | ⟨hnone, hdead⟩
  · have hlive := h.live_eq hone
    refine ⟨{ l with live := l.live.erase v.token }, ?_, ?_, ?_⟩
    · simp only [Ledger.event, hlive, List.mem_singleton, if_true]
    · simp only [hlive, List.erase_cons_head]
    · apply hend
      · simp only [hlive, List.erase_cons_head]
      · exact h.forced (Or.inl (by rw [hlive]; exact List.cons_ne_nil _ _))
  · refine ⟨{ l with dead := l.dead.erase v.token }, ?_, hnone, ?_⟩
    · simp only [Ledger.event, hnone, List.not_mem_nil, if_false, hdead, if_true]
    · apply hend
      · exact hnone
      · exact h.forced (Or.inr (List.ne_nil_of_mem hdead))

/-- A report about another child leaves the workload and its child alone. -/
theorem reaped_other {front back : List Child} {c : Child} (hreaped : v.Reaped v' front c back)
    (hpid : v.workload.map Prod.fst ≠ some c.pid) :
  v' = { v with kernel := v'.kernel } ∧ ∀ d, v.workload.map Prod.fst = some d.pid →
    (d ∈ v'.kernel.children ↔ d ∈ v.kernel.children)
  := by
  constructor
  · rcases hreaped.effect with ⟨_, rfl⟩ | ⟨status, _, rfl⟩
    · rw [Supervisor.View.stopSeen, if_neg hpid]
    · rw [Supervisor.View.endSeen, if_neg hpid]
  · intro d hd
    have hne : d.pid ≠ c.pid := fun heq => hpid (heq ▸ hd)
    have hdc : ∀ e : Child, e.pid = c.pid → d ≠ e := by
      rintro e he rfl
      exact hne he
    rcases hreaped.effect with ⟨_, rfl⟩ | ⟨status, _, rfl⟩
    · rw [Supervisor.View.stopSeen, if_neg hpid, hreaped.split]
      simp [hdc c rfl, hdc { c with unreported := false } rfl]
    · rw [Supervisor.View.endSeen, if_neg hpid, hreaped.split]
      simp [hdc c rfl]

theorem Acked.other {front back : List Child} {c : Child} (h : Acked v l effect)
    (hreaped : v.Reaped v' front c back) (hpid : v.workload.map Prod.fst ≠ some c.pid) :
  Acked v' l effect ∧ (StopToCome v'.kernel v'.workload ↔ StopToCome v.kernel v.workload)
  := by
  obtain ⟨hsame, hmem⟩ := reaped_other hreaped hpid
  have hworkload : v'.workload = v.workload := by rw [hsame]
  refine ⟨⟨h.toOwned.reaped hreaped, ?_, ?_, ?_, ?_, ?_⟩, ?_⟩
  · rw [hsame]
    exact h.forced
  · rw [hsame]
    exact h.latest
  · rw [hworkload]
    exact h.idle
  · rw [hworkload]
    intro pid seen hw d hd hdpid
    rw [hmem d (by rw [hw, Option.map_some, hdpid])] at hd
    exact h.fits pid seen hw d hd hdpid
  · rw [hsame]
    exact h.seen
  · rw [hworkload]
    constructor
    · rintro ⟨pid, b, hw, d, hd, hdpid, hd'⟩
      rw [hmem d (by rw [hw, Option.map_some, hdpid])] at hd
      exact ⟨pid, b, hw, d, hd, hdpid, hd'⟩
    · rintro ⟨pid, b, hw, d, hd, hdpid, hd'⟩
      rw [← hmem d (by rw [hw, Option.map_some, hdpid])] at hd
      exact ⟨pid, b, hw, d, hd, hdpid, hd'⟩

/-- One report.  What is left to find stays. -/
theorem Acked.reaped {front back : List Child} {c : Child} (h : Acked v l effect)
    (hreaped : v.Reaped v' front c back) (hfinds : ReapFinds v l) :
  ∃ evs l', v'.signals = v.signals ∧ v'.notices = v.notices ++ evs ∧
    evs.foldlM Ledger.event l = some l' ∧ Acked v' l' effect ∧ ReapFinds v' l'
  := by
  by_cases hpid : v.workload.map Prod.fst = some c.pid
  · rcases hreaped.effect with ⟨hstate, rfl⟩ | ⟨status, _, rfl⟩
    · obtain ⟨l', hevent, hlive, hacked⟩ :=
        h.stopSeen hreaped.split hreaped.unreported hstate hpid hfinds
      obtain ⟨hothers, _⟩ := h.distinct.of_split hreaped.split
      refine ⟨[.quiesceReady v.token], l', ?_, ?_, ?_, hacked, ?_⟩
      · rw [Supervisor.View.stopSeen, if_pos hpid]
      · rw [Supervisor.View.stopSeen, if_pos hpid]
      · rw [List.foldlM_cons, hevent]
        rfl
      · rw [Supervisor.View.stopSeen, if_pos hpid]
        rintro ⟨pid, b, hw, d, hd, hdpid, _, hdunreported⟩
        cases hw
        rw [List.mem_append, List.mem_cons] at hd
        rcases hd with hd | rfl | hd
        · exact absurd hdpid (hothers d (by simp [hd]))
        · cases hdunreported
        · exact absurd hdpid (hothers d (by simp [hd]))
    · refine ⟨[.workloadExited c.pid.toUInt32 (Supervisor.ExitStatus.fields status).1
        (Supervisor.ExitStatus.fields status).2], ⟨[], l.dead ++ l.live⟩, ?_, ?_, rfl, ?_, ?_⟩
      · rw [Supervisor.View.endSeen, if_pos hpid]
      · rw [Supervisor.View.endSeen, if_pos hpid]
      · apply h.gone (h.toOwned.reaped hreaped)
        · rw [Supervisor.View.endSeen, if_pos hpid]
        · rw [Supervisor.View.endSeen, if_pos hpid]
      · rw [Supervisor.View.endSeen, if_pos hpid]
        rintro ⟨pid, b, hw, _⟩
        cases hw
  · obtain ⟨hacked, hcome⟩ := h.other hreaped hpid
    obtain ⟨hsame, _⟩ := reaped_other hreaped hpid
    refine ⟨[], l, ?_, ?_, rfl, hacked, ?_⟩
    · rw [hsame]
    · rw [hsame, List.append_nil]
    · intro hcome'
      have hfound := hfinds (hcome.mp hcome')
      rw [hsame]
      exact hfound

/-- A reap that finds what it must. -/
theorem Acked.reaps (hreaps : v.Reaps v') (h : Acked v l effect) (hfinds : ReapFinds v l) :
  ∃ evs l', v'.signals = v.signals ∧ v'.notices = v.notices ++ evs ∧
    evs.foldlM Ledger.event l = some l' ∧ Acked v' l' effect
  := by
  induction hreaps generalizing l with
  | done _ => exact ⟨[], l, rfl, (List.append_nil _).symm, rfl, h⟩
  | more hreaped _ ih =>
      obtain ⟨evs, l', hsignals, hnotices, hevents, hacked, hfinds'⟩ := h.reaped hreaped hfinds
      obtain ⟨evs', l'', hsignals', hnotices', hevents', hacked'⟩ := ih hacked hfinds'
      refine ⟨evs ++ evs', l'', hsignals'.trans hsignals, ?_, ?_, hacked'⟩
      · rw [hnotices', hnotices, List.append_assoc]
      · rw [List.foldlM_append, hevents]
        exact hevents'

/-- The workload's child has no report. -/
def Silent (v : Supervisor.View) : Prop :=
  ∀ pid b, v.workload = some (pid, b) → ∀ c ∈ v.kernel.children, c.pid = pid → c.report = none

/-- A reap of a silent workload adds no event. -/
theorem reaps_silent (hreaps : v.Reaps v') (hsilent : Silent v) :
  v'.signals = v.signals ∧ v'.notices = v.notices
  := by
  induction hreaps with
  | done _ => exact ⟨rfl, rfl⟩
  | @more v v' v'' front back c hreaped _ ih =>
      have hpid : v.workload.map Prod.fst ≠ some c.pid := by
        intro hpid
        obtain ⟨w, hw, hwpid⟩ := Option.map_eq_some_iff.mp hpid
        have hnone := hsilent w.1 w.2 hw c (by simp [hreaped.split]) hwpid.symm
        rcases hreaped.effect with ⟨hstate, _⟩ | ⟨status, hstate, _⟩
        · simp [Child.report, hreaped.unreported, hstate] at hnone
        · simp [Child.report, hreaped.unreported, hstate] at hnone
      obtain ⟨hsame, hmem⟩ := reaped_other hreaped hpid
      have hworkload : v'.workload = v.workload := by rw [hsame]
      have hsilent' : Silent v' := by
        intro pid b hw d hd hdpid
        rw [hworkload] at hw
        rw [hmem d (by rw [hw, Option.map_some, hdpid])] at hd
        exact hsilent pid b hw d hd hdpid
      obtain ⟨hsignals, hnotices⟩ := ih hsilent'
      rw [hsignals, hnotices, hsame]
      exact ⟨rfl, rfl⟩

theorem reaps_none (hreaps : v.Reaps v') :
  ∀ c ∈ v'.kernel.children, c.report = none
  := by
  induction hreaps with
  | done hnone => exact hnone
  | more _ _ ih => exact ih

/-- A stop report that finds no entry, or too many, closes the ledger or leaves an entry without
a report. -/
theorem Acked.misread {front back : List Child} {c : Child} (h : Acked v l effect)
    (hsplit : v.kernel.children = front ++ c :: back)
    (hpid : v.workload.map Prod.fst = some c.pid)
    (hnot : ¬ (l.live.length = 1 ∨ (l.live = [] ∧ v.token ∈ l.dead))) :
  (l.event (.quiesceReady v.token) = none ∨
      ∃ l', l.event (.quiesceReady v.token) = some l' ∧ l'.live ≠ []) ∧
    Silent (v.stopSeen front c back)
  := by
  constructor
  · cases hlive : l.live with
    | nil =>
        left
        have hdead : v.token ∉ l.dead := fun hdead => hnot (Or.inr ⟨hlive, hdead⟩)
        simp only [Ledger.event, hlive, List.not_mem_nil, if_false, hdead]
    | cons token rest =>
        right
        have hmem : v.token ∈ l.live := by
          have hne : l.live ≠ [] := by rw [hlive]; exact List.cons_ne_nil _ _
          have hlast := List.getLast?_eq_some_getLast hne
          rw [← h.latest _ hlast]
          exact List.getLast_mem hne
        refine ⟨{ l with live := l.live.erase v.token }, ?_, ?_⟩
        · rw [Ledger.event, if_pos hmem]
        · intro hnil
          have hlen := List.length_erase_of_mem hmem
          dsimp only at hnil
          rw [hnil, hlive] at hlen
          have hrest : rest = [] := List.length_eq_zero_iff.mp (by simpa using hlen.symm)
          exact hnot (Or.inl (by rw [hlive, hrest]; rfl))
  · obtain ⟨hothers, _⟩ := h.distinct.of_split hsplit
    rw [Supervisor.View.stopSeen, if_pos hpid]
    intro pid b hw d hd hdpid
    cases hw
    rw [List.mem_append, List.mem_cons] at hd
    rcases hd with hd | rfl | hd
    · exact absurd hdpid (hothers d (by simp [hd]))
    · simp only [Child.report]
    · exact absurd hdpid (hothers d (by simp [hd]))

/-- The child whose report is taken is the stopped workload. -/
theorem stopped_of_reaped {front back : List Child} {c : Child} (h : v.kernel.Distinct)
    (hreaped : v.Reaped v' front c back) (hpid : v.workload.map Prod.fst = some c.pid)
    (hcome : StopToCome v.kernel v.workload) :
  c.state = .stopped ∧ v' = v.stopSeen front c back
  := by
  obtain ⟨pid, b, hw, d, hd, hdpid, hdstate, _⟩ := hcome
  rw [hw, Option.map_some, Option.some.injEq] at hpid
  obtain rfl : d = c :=
    List.inj_on_of_nodup_map h hd (by simp [hreaped.split]) (hdpid.trans hpid)
  rcases hreaped.effect with hstop | ⟨status, hended, _⟩
  · exact hstop
  · rw [hdstate] at hended
    cases hended

/-- The events of a reap that does not find what it must. -/
def Misread (l : Ledger) (v v' : Supervisor.View) : Prop :=
  ∃ evs, v'.signals = v.signals ∧ v'.notices = v.notices ++ evs ∧ Silent v' ∧
    (evs.foldlM Ledger.event l = none ∨ ∃ l', evs.foldlM Ledger.event l = some l' ∧ l'.live ≠ [])

theorem Acked.stopSeen_misread {front back : List Child} {c : Child} (h : Acked v l effect)
    (hreaped : v.Reaped v' front c back) (hpid : v.workload.map Prod.fst = some c.pid)
    (hcome : StopToCome v.kernel v.workload)
    (hnot : ¬ (l.live.length = 1 ∨ (l.live = [] ∧ v.token ∈ l.dead))) :
  Misread l v v'
  := by
  obtain ⟨_, rfl⟩ := stopped_of_reaped h.distinct hreaped hpid hcome
  obtain ⟨hevent, hsilent⟩ := h.misread hreaped.split hpid hnot
  refine ⟨[.quiesceReady v.token], ?_, ?_, hsilent, ?_⟩
  · rw [Supervisor.View.stopSeen, if_pos hpid]
  · rw [Supervisor.View.stopSeen, if_pos hpid]
  · rw [List.foldlM_cons]
    rcases hevent with hnone | ⟨l', hsome, hlive⟩
    · left
      rw [hnone]
      rfl
    · right
      refine ⟨l', ?_, hlive⟩
      rw [hsome]
      rfl

/-- A reap that does not find what it must. -/
theorem Acked.reaps_misread (hreaps : v.Reaps v') (h : Acked v l effect)
    (hcome : StopToCome v.kernel v.workload)
    (hnot : ¬ (l.live.length = 1 ∨ (l.live = [] ∧ v.token ∈ l.dead))) :
  Misread l v v'
  := by
  induction hreaps with
  | done hnone =>
      obtain ⟨pid, b, hw, d, hd, hdpid, hdstate, hdunreported⟩ := hcome
      have hreport := hnone d hd
      simp [Child.report, hdstate, hdunreported] at hreport
  | @more v v' v'' front back c hreaped hrest ih =>
      by_cases hpid : v.workload.map Prod.fst = some c.pid
      · obtain ⟨evs, hsignals, hnotices, hsilent, hevents⟩ :=
          h.stopSeen_misread hreaped hpid hcome hnot
        obtain ⟨hsignals', hnotices'⟩ := reaps_silent hrest hsilent
        refine ⟨evs, hsignals'.trans hsignals, hnotices'.trans hnotices, ?_, hevents⟩
        exact fun _ _ _ c hc _ => reaps_none hrest c hc
      · obtain ⟨hacked, hiff⟩ := h.other hreaped hpid
        obtain ⟨hsame, _⟩ := reaped_other hreaped hpid
        have hsignals : v'.signals = v.signals := by rw [hsame]
        have hnotices : v'.notices = v.notices := by rw [hsame]
        have htoken : v'.token = v.token := by rw [hsame]
        rw [Misread, ← hnotices, ← hsignals]
        apply ih hacked (hiff.mpr hcome)
        rw [htoken]
        exact hnot

/-! ### Commands -/

/-- The entries for what a step has added to the signals and the events. -/
def Ledger.follow (l : Ledger) (effect : Option UInt64) (cmds : List Command)
    (v v' : Supervisor.View) : Option Ledger :=
  l.audit effect cmds (v'.signals.drop v.signals.length) (v'.notices.drop v.notices.length)

theorem follow_eq {cmds : List Command} (signals : List (Int32 × Signal))
    (evs : List EventPayload) (hsignals : v'.signals = v.signals ++ signals)
    (hnotices : v'.notices = v.notices ++ evs) (hcont : continues signals = false) :
  l.follow effect cmds v v' = evs.foldlM Ledger.event (cmds.foldl Ledger.command l)
  := by
  rw [Ledger.follow, hsignals, hnotices, List.drop_left, List.drop_left, Ledger.audit,
    if_neg]
  rw [hcont]
  simp

/-- A step that adds no event and handles no forced quiesce leaves the ledger as it is. -/
theorem follow_quiet {cmds : List Command} (signals : List (Int32 × Signal))
    (hsignals : v'.signals = v.signals ++ signals) (hnotices : v'.notices = v.notices)
    (hcont : continues signals = false) (hcmds : cmds.foldl Ledger.command l = l) :
  l.follow effect cmds v v' = some l
  := by
  rw [follow_eq signals [] hsignals (by rw [hnotices, List.append_nil]) hcont, hcmds]
  rfl

/-- A signal of the agent is recorded. -/
theorem signals_signal (sig : Signal) (v : Supervisor.View) :
  ∃ signals, (v.signal sig).signals = v.signals ++ signals ∧
    (sig ≠ .cont → continues signals = false) ∧ (v.signal sig).notices = v.notices
  := by
  cases hw : v.workload with
  | none =>
      refine ⟨[], ?_, fun _ => rfl, ?_⟩
      · simp only [Supervisor.View.signal, hw, List.append_nil]
      · simp only [Supervisor.View.signal, hw]
  | some w =>
      refine ⟨[(w.1, sig)], ?_, ?_, ?_⟩
      · simp only [Supervisor.View.signal, hw]
      · intro hsig
        simp [continues, hsig]
      · simp only [Supervisor.View.signal, hw]

/-- A forced quiesce of a workload is entered. -/
theorem forced_live {pid : Int32} {b : Bool} (hw : v.workload = some (pid, b)) (token : UInt64) :
  l.follow effect [.quiesce token .forced] v (v.forced token)
    = some { l with live := l.live ++ [token] }
  := by
  have hview : v.forced token = { v with
      kernel := v.kernel.kill pid .stop
      signals := v.signals ++ [(pid, .stop)]
      token } := by
    simp only [Supervisor.View.forced, Supervisor.View.signal, hw]
  rw [follow_eq [(pid, .stop)] [] (by rw [hview]) (by rw [hview, List.append_nil]) rfl]
  rfl

/-- A forced quiesce that finds no workload whose stop was reported. -/
theorem Acked.forcedQuiesce (h : Acked v l effect) (token : UInt64)
    (hfresh : ∀ pid b, v.workload = some (pid, b) → v.kernel.Stopped pid →
      v.kernel.StopUnreported pid) :
  ∃ l', l.follow effect [.quiesce token .forced] v (v.forced token) = some l' ∧
    Acked (v.forced token) l' (some token)
  := by
  cases hw : v.workload with
  | none =>
      have hlive := h.idle hw
      have hview : v.forced token
          = { v with token, notices := v.notices ++ [.quiesceReady token] } := by
        simp only [Supervisor.View.forced, hw]
      refine ⟨l, ?_, ?_⟩
      · rw [follow_eq [] [.quiesceReady token]
          (by rw [hview, List.append_nil]) (by rw [hview]) rfl]
        obtain ⟨live, dead⟩ := l
        obtain rfl : live = [] := hlive
        simp [Ledger.command, Ledger.event]
      · rw [hview]
        refine ⟨h.toOwned.congr rfl rfl, fun _ => rfl, ?_, h.idle, ?_, ?_⟩
        · intro token' hlast
          rw [hlive] at hlast
          cases hlast
        · intro pid seen hsome
          cases hw.symm.trans hsome
        · intro pid hsome
          cases hw.symm.trans hsome
  | some w =>
      obtain ⟨pid, b⟩ := w
      have hview : v.forced token = { v with
          kernel := v.kernel.kill pid .stop
          signals := v.signals ++ [(pid, .stop)]
          token } := by
        simp only [Supervisor.View.forced, Supervisor.View.signal, hw]
      refine ⟨{ l with live := l.live ++ [token] }, forced_live hw token, ?_⟩
      have howned : Owned (v.forced token) :=
        (h.toOwned.change (survives_signal pid .stop)).congr (by rw [hview]; rfl) (by rw [hview])
      rw [hview] at howned ⊢
      refine ⟨howned, fun _ => rfl, ?_, ?_, ?_, fun _ _ => rfl⟩
      · intro token' hlast
        rw [List.getLast?_concat, Option.some.injEq] at hlast
        exact hlast.symm
      · intro hnone
        cases hw.symm.trans hnone
      · intro pid' seen hsome c hc hcpid
        cases hw.symm.trans hsome
        obtain ⟨d, hd, rfl⟩ := List.mem_map.mp hc
        have hdpid : d.pid = pid := by
          split at hcpid
          next heq => exact heq
          next => exact hcpid
        have hfits := h.fits pid b hw d hd hdpid
        rw [if_pos hdpid]
        obtain ⟨dpid, state, unreported, adopted⟩ := d
        cases state with
        | running => exact hfits.1
        | stopped =>
            -- the stop has not been reported
            obtain ⟨e, he, hepid, _, heunreported⟩ := hfresh pid b hw ⟨_, hd, hdpid, rfl⟩
            obtain rfl := List.inj_on_of_nodup_map h.distinct he hd (hepid.trans hdpid.symm)
            cases heunreported
            exact hfits
        | ended status => exact trivial

/-- A forced quiesce of a workload whose stop was reported has no report to come. -/
theorem forcedQuiesce_silent {pid : Int32} {b : Bool} (h : Owned v)
    (hw : v.workload = some (pid, b)) (hstopped : v.kernel.Stopped pid)
    (hreported : ¬ v.kernel.StopUnreported pid) (token : UInt64) :
  Silent (v.forced token)
  := by
  obtain ⟨c, hc, hcpid, hstate⟩ := hstopped
  have hunreported : c.unreported = false := by
    by_contra hnot
    exact hreported ⟨c, hc, hcpid, hstate, by simpa using hnot⟩
  simp only [Supervisor.View.forced, Supervisor.View.signal, hw]
  intro pid' b' hsome d hd hdpid
  cases hsome
  obtain ⟨e, he, rfl⟩ := List.mem_map.mp hd
  have hepid : e.pid = pid := by
    split at hdpid
    next heq => exact heq
    next => exact hdpid
  obtain rfl := List.inj_on_of_nodup_map h.distinct he hc (hepid.trans hcpid.symm)
  rw [if_pos hepid]
  simp only [Child.signal, hstate, Child.report, hunreported]

/-- A `Resume` that carries the last token if a stop was seen. -/
theorem Acked.resume (h : Acked v l effect) (token : UInt64)
    (hlast : ∀ pid, v.workload = some (pid, true) → token = v.token) :
  l.follow effect [.resume token] v v.resumed = some l ∧ Acked v.resumed l effect
  := by
  by_cases hseen : ∃ pid, v.workload = some (pid, true)
  · obtain ⟨pid, hw⟩ := hseen
    have hview : v.resumed = { v with
        kernel := v.kernel.kill pid .cont
        signals := v.signals ++ [(pid, .cont)]
        workload := some (pid, false) } := by
      simp only [Supervisor.View.resumed, Supervisor.View.signal, hw]
    constructor
    · have heffect := h.seen pid hw
      rw [Ledger.follow, hview]
      dsimp only
      rw [List.drop_left, List.drop_length, Ledger.audit, if_neg]
      · rfl
      · simp [resumes, heffect, hlast pid hw]
    · have howned : Owned v.resumed :=
        (h.toOwned.change (survives_signal pid .cont)).congr (by rw [hview]; rfl)
          (by rw [hview, hw]; rfl)
      rw [hview] at howned ⊢
      refine ⟨howned, h.forced, h.latest, ?_, ?_, ?_⟩
      · intro hnone
        cases hnone
      · intro pid' seen hsome c hc hcpid
        cases hsome
        obtain ⟨d, hd, rfl⟩ := List.mem_map.mp hc
        have hdpid : d.pid = pid := by
          split at hcpid
          next heq => exact heq
          next => exact hcpid
        rw [if_pos hdpid]
        exact fits_cont (h.fits pid true hw d hd hdpid)
      · intro pid' hsome
        cases hsome
  · have hview : v.resumed = v := by
      rw [Supervisor.View.resumed]
      split
      next pid hw => exact absurd ⟨pid, hw⟩ hseen
      next => rfl
    rw [hview]
    refine ⟨follow_quiet [] (List.append_nil _).symm rfl rfl rfl, h⟩

/-- A `Resume` with another token closes the ledger. -/
theorem Acked.stale (h : Acked v l effect) {pid : Int32} (hw : v.workload = some (pid, true))
    {token : UInt64} (hstale : token ≠ v.token) :
  l.follow effect [.resume token] v v.resumed = none
  := by
  have hview : v.resumed = { v with
      kernel := v.kernel.kill pid .cont
      signals := v.signals ++ [(pid, .cont)]
      workload := some (pid, false) } := by
    simp only [Supervisor.View.resumed, Supervisor.View.signal, hw]
  rw [Ledger.follow, hview]
  dsimp only
  rw [List.drop_left, List.drop_length, Ledger.audit, if_pos]
  rw [h.seen pid hw]
  simp [continues, resumes, hstale.symm]

/-- An immediate shutdown leaves the entries behind. -/
theorem Acked.killed (h : Acked v l effect) :
  ∃ l', l.follow effect [.shutdown .immediate] v v.killed = some l' ∧ Acked v.killed l' effect
  := by
  cases hw : v.workload with
  | none =>
      have hview : v.killed = v := by simp only [Supervisor.View.killed, hw]
      rw [hview]
      exact ⟨l, follow_quiet [] (List.append_nil _).symm rfl rfl rfl, h⟩
  | some w =>
      refine ⟨⟨[], l.dead ++ l.live⟩, ?_, h.gone h.toOwned.killed ?_ ?_⟩
      · rw [follow_eq [(w.1, .kill)] [.workloadExited w.1.toUInt32 (-1) sigkill]]
        · rfl
        · simp only [Supervisor.View.killed, Supervisor.View.signal, hw]
        · simp only [Supervisor.View.killed, hw]
        · rfl
      · simp only [Supervisor.View.killed, Supervisor.View.signal, hw]
      · simp only [Supervisor.View.killed, hw]

/-- A step that shows no signal and no event, and handles nothing. -/
theorem follow_same (hsignals : v'.signals = v.signals) (hnotices : v'.notices = v.notices) :
  l.follow effect [] v v' = some l
  := follow_quiet [] (by rw [hsignals, List.append_nil]) hnotices rfl rfl

/-- Every operation that finds what it must. -/
theorem Acked.moves {op : SuperviseOp} (h : Acked v l effect) (hmoves : Moves op v v')
    (hreap : op = .reap ∨ op = .reapWorkload → ReapFinds v l)
    (hforced : ∀ token, op = .command (.quiesce token .forced) → ∀ pid b,
      v.workload = some (pid, b) → v.kernel.Stopped pid → v.kernel.StopUnreported pid)
    (hresume : ∀ token, op = .command (.resume token) → ∀ pid, v.workload = some (pid, true) →
      token = v.token) :
  ∃ l', l.follow effect op.commands v v' = some l' ∧
    Acked v' l' (op.commands.foldl effectAfter effect)
  := by
  cases op with
  | command cmd =>
      cases cmd with
      | startWorkload unit logMask =>
          rcases hmoves with rfl | ⟨pid, kernel, hw, hfork, rfl⟩
          · exact ⟨l, follow_quiet [] (List.append_nil _).symm rfl rfl rfl, h⟩
          · refine ⟨l, ?_, h.started hw hfork unit⟩
            exact follow_eq [] [.workloadStarted pid.toUInt32 unit] (List.append_nil _).symm rfl rfl
      | quiesce token mode =>
          cases mode with
          | coop =>
              obtain rfl : v' = v := hmoves
              exact ⟨l, follow_quiet [] (List.append_nil _).symm rfl rfl rfl, h⟩
          | forced =>
              obtain rfl : v' = v.forced token := hmoves
              exact h.forcedQuiesce token (hforced token rfl)
      | resume token =>
          obtain rfl : v' = v.resumed := hmoves
          exact ⟨l, h.resume token (hresume token rfl)⟩
      | shutdown mode =>
          cases mode with
          | graceful =>
              obtain rfl : v' = v.signal .term := hmoves
              obtain ⟨signals, hsignals, hcont, hnotices⟩ := signals_signal .term v
              exact ⟨l, follow_quiet signals hsignals hnotices (hcont (by decide)) rfl,
                h.signal (Or.inl rfl)⟩
          | immediate =>
              obtain rfl : v' = v.killed := hmoves
              exact h.killed
      | setLogMask mask =>
          obtain rfl : v' = v := hmoves
          exact ⟨l, follow_quiet [] (List.append_nil _).symm rfl rfl rfl, h⟩
      | reverifyRegions =>
          obtain rfl : v' = v := hmoves
          exact ⟨l, follow_quiet [] (List.append_nil _).symm rfl rfl rfl, h⟩
  | reap =>
      obtain ⟨evs, l', hsignals, hnotices, hevents, hacked⟩ := h.reaps hmoves (hreap (Or.inl rfl))
      refine ⟨l', ?_, hacked⟩
      rw [follow_eq [] evs (by rw [hsignals, List.append_nil]) hnotices rfl]
      exact hevents
  | reapWorkload =>
      rcases hmoves with ⟨rfl, _⟩ | ⟨front, c, back, _, hreaped⟩
      · exact ⟨l, follow_same rfl rfl, h⟩
      · obtain ⟨evs, l', hsignals, hnotices, hevents, hacked, _⟩ :=
          h.reaped hreaped (hreap (Or.inr rfl))
        refine ⟨l', ?_, hacked⟩
        rw [follow_eq [] evs (by rw [hsignals, List.append_nil]) hnotices rfl]
        exact hevents
  | sweep =>
      rcases hmoves with rfl | rfl
      · exact ⟨l, follow_same rfl rfl, h⟩
      · obtain ⟨signals, hsignals, hcont, hnotices⟩ := signals_signal .kill v
        exact ⟨l, follow_quiet signals hsignals hnotices (hcont (by decide)) rfl,
          h.signal (Or.inr rfl)⟩
  | exit pid status =>
      obtain rfl : v' = { v with kernel := v.kernel.exit pid status } := hmoves
      exact ⟨l, follow_same rfl rfl, h.change (survives_exit pid status)
        fun c seen hc => fits_exit hc pid status⟩
  | stop pid =>
      obtain rfl : v' = { v with kernel := v.kernel.kill pid .stop } := hmoves
      exact ⟨l, follow_same rfl rfl, h.change (survives_signal pid .stop)
        fun c seen hc => fits_stop hc pid⟩
  | nextPid pid =>
      obtain rfl : v' = { v with kernel := { v.kernel with nextPid := pid } } := hmoves
      exact ⟨l, follow_same rfl rfl, ⟨h.distinct, h.one, h.waiting⟩, h.forced, h.latest, h.idle,
        h.fits, h.seen⟩
  | adopt =>
      rcases hmoves with rfl | ⟨pid, kernel, hadd, rfl⟩
      · exact ⟨l, follow_same rfl rfl, h⟩
      · exact ⟨l, follow_same rfl rfl, h.add hadd (h.toOwned.adopt hadd).2⟩
  | pipe pipe | regions | clock now | print pipe bytes =>
      obtain rfl : v' = v := hmoves
      exact ⟨l, follow_same rfl rfl, h⟩

end Steps

/-! ### Every run -/

section Runs

variable {ρ : Type} (server : RegionServer ρ)

/-- The invariant of a state and its ledger. -/
def AuditInv (a : Audited ρ) : Prop :=
  ∃ l, a.ledger = some l ∧ Acked a.state.sup.view l (inEffect a.state.handled)

theorem AuditInv.accounted {a : Audited ρ} (h : AuditInv a) : Accounted a := by
  obtain ⟨l, hledger, hacked⟩ := h
  refine ⟨l, hledger, ?_⟩
  intro hlive
  obtain ⟨pid, seen, hview, c, hc, hpid, hreport⟩ := hacked.outstanding hlive
  obtain ⟨w, hw, rfl, _⟩ := view_workload.mp hview
  exact ⟨w, hw, c, hc, hpid, hreport⟩

/-- The ledger after an operation that moves the view. -/
theorem ledger_auditStep {a : Audited ρ} {l : Ledger} (hledger : a.ledger = some l)
    {op : SuperviseOp}
    (hhandled : (superviseStep server a.state op).handled = a.state.handled ++ op.commands) :
  (auditStep server a op).ledger = l.follow (inEffect a.state.handled) op.commands
    a.state.sup.view (superviseStep server a.state op).sup.view
  := by
  rw [auditStep]
  dsimp only
  rw [hledger, hhandled, List.drop_left]
  rfl

/-- Operations that find what they must keep the invariant. -/
theorem AuditInv.step {a : Audited ρ} (h : AuditInv a) {op : SuperviseOp}
    (hop : Attributable a op) :
  AuditInv (auditStep server a op)
  := by
  obtain ⟨l, hledger, hacked⟩ := h
  rcases superviseStep_cases server a.state op with ⟨_, _, hsame⟩ | ⟨hdone, hmoves, hhandled⟩
  · refine ⟨l, ?_, ?_⟩
    · rw [auditStep]
      dsimp only
      rw [hledger, hsame, List.drop_length, List.drop_length, List.drop_length]
      rfl
    · rw [auditStep]
      dsimp only
      rw [hsame]
      exact hacked
  · have hreap : op = .reap ∨ op = .reapWorkload → ReapFinds a.state.sup.view l := by
      intro hreap hcome
      have hloop : op.loop = true := by rcases hreap with rfl | rfl <;> rfl
      exact hop.reap hreap (hdone hloop) (stopPending_iff.mpr hcome) l hledger
    have hforced : ∀ token, op = .command (.quiesce token .forced) → ∀ pid b,
        a.state.sup.view.workload = some (pid, b) → a.state.sup.view.kernel.Stopped pid →
        a.state.sup.view.kernel.StopUnreported pid := by
      rintro token rfl pid b hview hstopped
      obtain ⟨w, hw, rfl, _⟩ := view_workload.mp hview
      obtain ⟨w', hw', hreported⟩ := hop.forced token rfl (hdone rfl) ⟨w, hw, hstopped⟩
      rw [hw] at hw'
      cases hw'
      exact hreported
    have hresume : ∀ token, op = .command (.resume token) → ∀ pid,
        a.state.sup.view.workload = some (pid, true) → token = a.state.sup.view.token := by
      rintro token rfl pid hview
      obtain ⟨w, hw, _, hseen⟩ := view_workload.mp hview
      exact hop.resume token rfl (hdone rfl) w hw hseen
    obtain ⟨l', hfollow, hacked'⟩ := hacked.moves hmoves hreap hforced hresume
    refine ⟨l', ?_, ?_⟩
    · rw [ledger_auditStep server hledger hhandled, hfollow]
    · rw [auditStep]
      dsimp only
      rw [hhandled, inEffect, List.foldl_append]
      exact hacked'

/-- A silent workload has no report outstanding. -/
theorem not_outstanding_of_silent {s : SuperviseState ρ} (h : Silent s.sup.view) :
  ¬ ReportOutstanding s
  := by
  rintro ⟨w, hw, c, hc, hpid, hreport⟩
  exact hreport (h w.pid w.stopped (view_workload.mpr ⟨w, hw, rfl, rfl⟩) c hc hpid)

/-- An operation that does not find what it must is not accounted for. -/
theorem not_accounted {a : Audited ρ} (h : AuditInv a) {op : SuperviseOp}
    (hop : ¬ Attributable a op) :
  ¬ Accounted (auditStep server a op)
  := by
  obtain ⟨l, hledger, hacked⟩ := h
  rintro ⟨l', hl', hlive'⟩
  have hstep : ∀ hdone : a.state.done = false,
      Moves op a.state.sup.view (superviseStep server a.state op).sup.view ∧
        l.follow (inEffect a.state.handled) op.commands a.state.sup.view
          (superviseStep server a.state op).sup.view = some l' := by
    intro hdone
    obtain ⟨hmoves, hhandled⟩ := moves_superviseStep server hdone op
    refine ⟨hmoves, ?_⟩
    rw [← ledger_auditStep server hledger hhandled]
    exact hl'
  apply hop
  constructor
  · intro hreap hdone hpending k hk
    rw [hledger, Option.some.injEq] at hk
    subst hk
    by_contra hnot
    obtain ⟨hmoves, hfollow⟩ := hstep hdone
    have hcome := stopPending_iff.mp hpending
    have hmisread : Misread l a.state.sup.view (superviseStep server a.state op).sup.view := by
      rcases hreap with rfl | rfl
      · exact hacked.reaps_misread hmoves hcome hnot
      · rcases hmoves with ⟨_, hsilent⟩ | ⟨front, c, back, hpid, hreaped⟩
        · obtain ⟨pid, b, hw, d, hd, hdpid, hdstate, hdunreported⟩ := hcome
          have hreport := hsilent pid b hw d hd hdpid
          simp [Child.report, hdstate, hdunreported] at hreport
        · exact hacked.stopSeen_misread hreaped hpid hcome hnot
    obtain ⟨evs, hsignals, hnotices, hsilent, hevents⟩ := hmisread
    have hcommands : op.commands = [] := by rcases hreap with rfl | rfl <;> rfl
    rw [follow_eq [] evs (by rw [hsignals, List.append_nil]) hnotices rfl, hcommands] at hfollow
    rcases hevents with hnone | ⟨l'', hsome, hlive⟩
    · cases hnone.symm.trans hfollow
    · cases hsome.symm.trans hfollow
      exact not_outstanding_of_silent hsilent (hlive' hlive)
  · rintro token rfl hdone ⟨w, hw, hstopped⟩
    by_contra hnot
    obtain ⟨hmoves, hfollow⟩ := hstep hdone
    have hview : a.state.sup.view.workload = some (w.pid, w.stopped) :=
      view_workload.mpr ⟨w, hw, rfl, rfl⟩
    have hsilent := forcedQuiesce_silent hacked.toOwned hview hstopped
      (fun hreported => hnot ⟨w, hw, hreported⟩) token
    have hforced : _ = a.state.sup.view.forced token := hmoves
    rw [← hforced] at hsilent
    refine not_outstanding_of_silent hsilent (hlive' ?_)
    rw [hforced, SuperviseOp.commands, forced_live hview] at hfollow
    cases hfollow
    simp
  · rintro token rfl hdone w hw hseen
    by_contra hstale
    obtain ⟨hmoves, hfollow⟩ := hstep hdone
    have hresumed : _ = a.state.sup.view.resumed := hmoves
    rw [hresumed] at hfollow
    have hnone := hacked.stale (view_workload.mpr ⟨w, hw, rfl, hseen⟩) hstale
    cases hnone.symm.trans hfollow

/-- **Acknowledgements.**  In every run of the supervise loop from a fresh supervisor, all events
and signals are accounted for exactly when each reap that takes the report of a stop of the
workload finds one entry to strike out, no forced quiesce finds a workload whose stop was
reported, and each `Resume` after a stop was seen carries the last token. -/
theorem acknowledgements_accounted (units : List BootUnit) (pid : Int32) (regionIpc : Option ρ)
    (now : UInt64) (ops : List SuperviseOp) :
  let start : Audited ρ :=
    ⟨⟨.new units ⟨[], pid, []⟩ regionIpc now, [], false⟩, some ⟨[], []⟩⟩
  (∀ front, front <+: ops → Accounted (front.foldl (auditStep server) start)) ↔
    ∀ front op, front ++ [op] <+: ops → Attributable (front.foldl (auditStep server) start) op
  := by
  intro start
  have hstart : AuditInv start := by
    refine ⟨⟨[], []⟩, rfl, ⟨List.nodup_nil, rfl, ?_⟩, ?_, ?_, fun _ => rfl, ?_, ?_⟩
    · intro c hc
      cases hc
    · intro hsome
      rcases hsome with hlive | hdead
      · exact absurd rfl hlive
      · exact absurd rfl hdead
    · intro token hlast
      cases hlast
    · intro pid seen hw
      cases hw
    · intro pid hw
      cases hw
  refine Machine.always_iff (G := Accounted) (C := Attributable) hstart ?_ ?_ ?_ ops
  · intro a h
    exact h.accounted
  · intro a op h hop
    exact h.step server hop
  · intro a op h hop
    exact not_accounted server h hop

end Runs

/-- The workload stops by itself, and the stop is collected. -/
def selfStopOps : List SuperviseOp :=
  [.command (.startWorkload 0 31), .stop 100, .reap]

/-- The stop is acknowledged as a forced quiesce that there never was. -/
theorem self_stop_unaccounted :
  ¬ Accounted (selfStopOps.foldl (auditStep noRegions)
    ⟨⟨.new [⟨0, 31⟩] ⟨[], 100, []⟩ none 0, [], false⟩, some ⟨[], []⟩⟩)
  := by
  rintro ⟨l, hledger, _⟩
  have hnone : (selfStopOps.foldl (auditStep noRegions)
      ⟨⟨.new [⟨0, 31⟩] ⟨[], 100, []⟩ none 0, [], false⟩, some ⟨[], []⟩⟩).ledger.isNone = true := by
    decide +kernel
  rw [hledger] at hnone
  cases hnone

end Protocol
