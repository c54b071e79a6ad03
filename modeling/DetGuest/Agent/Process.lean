import DetGuest.Lib.Exec

/-!
# The children of the agent

What the kernel does with the signals of the agent: `SIGSTOP` stops a running child, and each
transition to stopped is collected at most once, by a later `waitpid` with `WUNTRACED`;
`SIGCONT` continues a stopped child.
-/

namespace Agent

/-- How a child ended. -/
inductive ExitStatus where
  | exited (code : Int32)
  | signaled (sig : Int32)
  deriving DecidableEq, Repr

/-- The state of a child. -/
inductive ChildState where
  | running
  | stopped
  | ended (status : ExitStatus)
  deriving DecidableEq, Repr

/-- A child, whether `waitpid` has still to report its state, and whether it is an orphan of
another process that the agent has adopted. -/
structure Child where
  pid : Int32
  state : ChildState
  unreported : Bool
  adopted : Bool
  deriving DecidableEq, Repr

/-- The status that `waitpid` stores. -/
inductive WaitStatus where
  | stopped
  | ended (status : ExitStatus)
  deriving DecidableEq, Repr

/-- The signals that the agent sends. -/
inductive Signal where
  | stop
  | cont
  | term
  | kill
  deriving DecidableEq, Repr

/-- The number of `SIGKILL`. -/
def sigkill : Int32 := 9

/-- A signal reaches a child.  What `SIGTERM` leads to is up to the child. -/
def Child.signal (c : Child) (sig : Signal) : Child :=
  match sig, c.state with
  | .stop, .running => { c with state := .stopped, unreported := true }
  | .cont, .stopped => { c with state := .running, unreported := false }
  | .kill, .running => { c with state := .ended (.signaled sigkill), unreported := true }
  | .kill, .stopped => { c with state := .ended (.signaled sigkill), unreported := true }
  | _, _ => c

/-- The report that `waitpid` finds for a child. -/
def Child.report (c : Child) : Option WaitStatus :=
  match c.unreported, c.state with
  | true, .stopped => some .stopped
  | true, .ended status => some (.ended status)
  | _, _ => none

/-- The children of the agent, the process id that the kernel would give to the next one, and
the children that the agent has started itself and that have ended, in this order. -/
structure Kernel where
  children : List Child
  nextPid : Int32
  ended : List (Int32 × ExitStatus)
  deriving DecidableEq, Repr

/-- What the children that are not adopted and reach an end by `f` leave behind. -/
def endings (f : Child → Child) (children : List Child) : List (Int32 × ExitStatus) :=
  children.filterMap fun c =>
    match c.adopted, c.state, (f c).state with
    | true, _, _ => none
    | false, .ended _, _ => none
    | false, _, .ended status => some (c.pid, status)
    | false, _, _ => none

/-- The children change by `f`. -/
def Kernel.change (k : Kernel) (f : Child → Child) : Kernel :=
  { k with children := k.children.map f, ended := k.ended ++ endings f k.children }

/-- `kill(pid, sig)`. -/
def Kernel.kill (k : Kernel) (pid : Int32) (sig : Signal) : Kernel :=
  k.change fun c => if c.pid = pid then c.signal sig else c

/-- The first report of a child that is waited for, and the children behind it: an ended
child is gone, a stopped one stays. -/
def collect (wanted : Int32 → Bool) : List Child → Option (Int32 × WaitStatus) × List Child
  | [] => (none, [])
  | c :: cs =>
      match wanted c.pid, c.report with
      | true, some .stopped => (some (c.pid, .stopped), { c with unreported := false } :: cs)
      | true, some (.ended status) => (some (c.pid, .ended status), cs)
      | _, _ =>
          let next := collect wanted cs
          (next.1, c :: next.2)

/-- `waitpid` with `WNOHANG | WUNTRACED`. -/
def Kernel.waitpid (k : Kernel) (wanted : Int32 → Bool) :
    Option (Int32 × WaitStatus) × Kernel :=
  let next := collect wanted k.children
  (next.1, { k with children := next.2 })

/-- A child that runs ends by itself. -/
def Kernel.exit (k : Kernel) (pid : Int32) (status : ExitStatus) : Kernel :=
  k.change fun c =>
    if c.pid = pid ∧ c.state = .running then
      { c with state := .ended status, unreported := true }
    else
      c

/-- A new child runs, unless its process id is taken. -/
def Kernel.add (k : Kernel) (adopted : Bool) : Option (Int32 × Kernel) :=
  if k.children.any (fun c => c.pid = k.nextPid) then
    none
  else
    some (k.nextPid,
      { k with children := k.children ++ [⟨k.nextPid, .running, false, adopted⟩] })

/-- `fork`. -/
def Kernel.fork (k : Kernel) : Option (Int32 × Kernel) := k.add false

/-! ### What a supervisor sees of a child -/

/-- The child `pid` is stopped. -/
def Kernel.Stopped (k : Kernel) (pid : Int32) : Prop :=
  ∃ c ∈ k.children, c.pid = pid ∧ c.state = .stopped

/-- The stop of the child `pid` has not been reported. -/
def Kernel.StopUnreported (k : Kernel) (pid : Int32) : Prop :=
  ∃ c ∈ k.children, c.pid = pid ∧ c.state = .stopped ∧ c.unreported = true

instance (k : Kernel) (pid : Int32) : Decidable (k.Stopped pid) :=
  inferInstanceAs (Decidable (∃ c ∈ k.children, _))

instance (k : Kernel) (pid : Int32) : Decidable (k.StopUnreported pid) :=
  inferInstanceAs (Decidable (∃ c ∈ k.children, _))

/-! ### Reports -/

/-- A call of `waitpid` finds no report, or it takes the report of one child: a stopped child
stays without it, an ended child is gone. -/
theorem collect_cases (wanted : Int32 → Bool) (cs : List Child) :
  (collect wanted cs = (none, cs) ∧ ∀ c ∈ cs, wanted c.pid = true → c.report = none) ∨
    ∃ front c back, cs = front ++ c :: back ∧ wanted c.pid = true ∧ c.unreported = true ∧
      ((c.state = .stopped ∧ collect wanted cs
          = (some (c.pid, .stopped), front ++ { c with unreported := false } :: back)) ∨
        ∃ status, c.state = .ended status ∧
          collect wanted cs = (some (c.pid, .ended status), front ++ back))
  := by
  induction cs with
  | nil => exact Or.inl ⟨rfl, by simp⟩
  | cons c cs ih =>
      by_cases hc : wanted c.pid = true ∧ ∃ status, c.report = some status
      · obtain ⟨hwanted, status, hreport⟩ := hc
        right
        have hunreported : c.unreported = true := by
          rw [Child.report] at hreport
          split at hreport
          · assumption
          · assumption
          · cases hreport
        refine ⟨[], c, cs, rfl, hwanted, hunreported, ?_⟩
        have hstate := hreport
        simp only [Child.report, hunreported] at hstate
        cases hs : c.state with
        | running =>
            rw [hs] at hstate
            cases hstate
        | stopped =>
            rw [hs] at hstate
            cases hstate
            left
            exact ⟨rfl, by simp [collect, hwanted, hreport, hs]⟩
        | ended ended =>
            rw [hs] at hstate
            cases hstate
            right
            exact ⟨ended, rfl, by simp [collect, hwanted, hreport]⟩
      · have hskip : collect wanted (c :: cs)
            = ((collect wanted cs).1, c :: (collect wanted cs).2) := by
          rw [collect]
          split
          next hwanted hreport => exact absurd ⟨hwanted, _, hreport⟩ hc
          next hwanted hreport => exact absurd ⟨hwanted, _, hreport⟩ hc
          next => rfl
        rcases ih with ⟨hnone, hall⟩ | ⟨front, d, back, rfl, hwanted, hunreported, hd⟩
        · left
          refine ⟨by rw [hskip, hnone], ?_⟩
          intro d hd hwanted
          rcases List.mem_cons.mp hd with rfl | hd
          · cases hreport : d.report with
            | none => rfl
            | some status => exact absurd ⟨hwanted, status, hreport⟩ hc
          · exact hall d hd hwanted
        · right
          refine ⟨c :: front, d, back, rfl, hwanted, hunreported, ?_⟩
          rcases hd with ⟨hstate, hcollect⟩ | ⟨status, hstate, hcollect⟩
          · exact Or.inl ⟨hstate, by rw [hskip, hcollect]; rfl⟩
          · exact Or.inr ⟨status, hstate, by rw [hskip, hcollect]; rfl⟩

/-- The process ids of the children are distinct. -/
def Kernel.Distinct (k : Kernel) : Prop := (k.children.map Child.pid).Nodup

/-- The other children have other process ids. -/
theorem Kernel.Distinct.of_split {k : Kernel} {front back : List Child} {c : Child}
    (h : k.Distinct) (hsplit : k.children = front ++ c :: back) :
  (∀ d ∈ front ++ back, d.pid ≠ c.pid) ∧ ((front ++ back).map Child.pid).Nodup
  := by
  have hperm : (k.children.map Child.pid).Nodup
      ↔ (c.pid :: (front ++ back).map Child.pid).Nodup := by
    rw [hsplit]
    exact (List.perm_middle.map Child.pid).nodup_iff
  have hnodup := hperm.mp h
  rw [List.nodup_cons, List.mem_map] at hnodup
  refine ⟨?_, hnodup.2⟩
  intro d hd heq
  exact hnodup.1 ⟨d, hd, heq⟩

theorem Child.pid_signal (c : Child) (sig : Signal) : (c.signal sig).pid = c.pid := by
  obtain ⟨pid, state, unreported, adopted⟩ := c
  cases sig <;> cases state <;> rfl

theorem Kernel.Distinct.change {k : Kernel} {f : Child → Child} (h : k.Distinct)
    (hf : ∀ c, (f c).pid = c.pid) :
  (k.change f).Distinct
  := by
  have hmap : (k.children.map f).map Child.pid = k.children.map Child.pid := by
    rw [List.map_map]
    congr 1
    funext c
    exact hf c
  rw [Kernel.Distinct, Kernel.change, hmap]
  exact h

theorem Kernel.distinct_kill {k : Kernel} (h : k.Distinct) (pid : Int32) (sig : Signal) :
  (k.kill pid sig).Distinct
  := by
  apply h.change
  intro c
  split
  · exact c.pid_signal sig
  · rfl

theorem Kernel.distinct_exit {k : Kernel} (h : k.Distinct) (pid : Int32) (status : ExitStatus) :
  (k.exit pid status).Distinct
  := by
  apply h.change
  intro c
  split <;> rfl

/-- A new child has a process id of its own. -/
theorem Kernel.add_eq_some {k k' : Kernel} {pid : Int32} {adopted : Bool}
    (h : k.add adopted = some (pid, k')) :
  k' = { k with children := k.children ++ [⟨pid, .running, false, adopted⟩] } ∧
    ∀ c ∈ k.children, c.pid ≠ pid
  := by
  rw [Kernel.add] at h
  split at h
  · cases h
  next hfree =>
    cases h
    refine ⟨rfl, ?_⟩
    intro c hc heq
    exact hfree (List.any_eq_true.mpr ⟨c, hc, by simpa using heq⟩)

theorem Kernel.Distinct.add {k k' : Kernel} {pid : Int32} {adopted : Bool} (h : k.Distinct)
    (hadd : k.add adopted = some (pid, k')) :
  k'.Distinct
  := by
  obtain ⟨rfl, hfree⟩ := Kernel.add_eq_some hadd
  rw [Kernel.Distinct, List.map_append, List.nodup_append]
  refine ⟨h, by simp, ?_⟩
  intro a ha b hb
  obtain ⟨c, hc, rfl⟩ := List.mem_map.mp ha
  obtain rfl : b = pid := by simpa using hb
  exact hfree c hc

/-- The number of reports that `waitpid` can find. -/
def Kernel.reports (k : Kernel) : Nat := k.children.countP fun c => c.report.isSome

end Agent
