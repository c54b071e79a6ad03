import DetGuest.Agent.Brackets
import DetGuest.Protocol.Regions

/-!
# Runs of the region server

The server handles requests and sweeps in any order.  Every operation has one of a few effects on
the book that the server keeps, and in every run the manifest and the ledger stay in agreement.
-/

namespace Protocol.Regions

open Wire Wire.Regionipc Agent

/-! ### Operations -/

/-- An operation of the server. -/
inductive Operation where
  | request (req : Request) (peerPid : Int32) (workloadPid : Option Int32)
  | reverify

/-- A request is one that some datagram is decoded to. -/
def Operation.Possible : Operation → Prop
  | .request req _ _ => ∃ bytes, decodeRequest bytes = .ok req
  | .reverify => True

/-- Perform an operation; a request has a reply. -/
def perform {τ : Type} (dbg : Bool) (f : Translator τ) : Operation → RegionExec τ (Option Reply)
  | .request req peerPid workloadPid => do
      let reply ← RegionIpc.handle dbg f req peerPid workloadPid
      pure (some reply)
  | .reverify => do
      RegionIpc.reverify dbg f
      pure none

/-! ### Effects -/

section Effects

variable {τ : Type}

/-- The changes that an operation makes to a book, and its reply. -/
inductive Effect (f : Translator τ) (t : τ) (b : Book) :
    Operation → List Change → Option Reply → Prop where
  | stranger {req : Request} {peerPid : Int32} {workloadPid : Option Int32}
      (hpid : workloadPid ≠ some peerPid) :
      Effect f t b (.request req peerPid workloadPid) [] (some (errReply .unknownPid))
  | refused {flags layoutVersion nameId : UInt32} {gva len : UInt64} {name : Bytes}
      {pid : Int32} {status : Status}
      (hrefusal : RegionIpc.refusal b.regions.length b.pool (f t pid gva len).2 = some status) :
      Effect f t b (.request (.register flags layoutVersion nameId gva len name) pid (some pid)) []
        (some (errReply status))
  | registered {r : Region} (hanswer : (f t r.pid r.gva r.len).2 = .ok r.extents)
      (hname : r.name ≠ []) (howned : r.owned = true) (hallows : b.Allows (.publish r))
      (hgen : (b.generation + 2).toNat < 2 ^ 32) :
      Effect f t b
        (.request (.register r.flags r.layoutVersion r.nameId r.gva r.len r.name) r.pid
          (some r.pid))
        [.publish r]
        (some ⟨Status.ok.toU16, UInt32.ofNat b.regions.length, r.nameId, b.generation + 2⟩)
  | stranded {r : Region} (hanswer : (f t r.pid r.gva r.len).2 = .ok r.extents)
      (hname : r.name ≠ []) (howned : r.owned = false) (hallows : b.Allows (.publish r))
      (hgen : 2 ^ 32 ≤ (b.generation + 2).toNat) :
      Effect f t b
        (.request (.register r.flags r.layoutVersion r.nameId r.gva r.len r.name) r.pid
          (some r.pid))
        [.publish r] (some (errReply .internal))
  | unknown {regionId : UInt32} {pid : Int32}
      (hnone : ∀ record ∈ b.ledger, record.regionId = regionId → record.dead = true) :
      Effect f t b (.request (.unregister regionId) pid (some pid)) []
        (some (errReply .unknownRegion))
  | unregistered {i : Nat} {r : Region} {pid : Int32} (hr : b.regions[i]? = some r)
      (howned : r.owned = true) (hdead : r.dead = false) :
      Effect f t b (.request (.unregister (UInt32.ofNat i)) pid (some pid)) [.bury i]
        (some ⟨Status.ok.toU16, UInt32.ofNat i, r.nameId, b.generation + 2⟩)
  | swept : Effect f t b .reverify (Book.sweep f t b 0 b.regions).2 none

variable {f : Translator τ} {s : RegionIpc τ} {b : Book} {t : τ} {op : Operation}
  {cs : List Change} {out : Option Reply}

/-- A sweep makes at most one change about each region. -/
theorem length_sweep (f : Translator τ) (t : τ) (b : Book) (i : Nat) (rs : List Region) :
  (Book.sweep f t b i rs).2.length ≤ rs.length
  := by
  induction rs generalizing t b i with
  | nil => exact Nat.le_refl _
  | cons r rs ih =>
      rw [Book.sweep]
      split
      · dsimp only
        have hone : (b.verdict i r (f t r.pid r.gva r.len).2).length ≤ 1 := by
          cases (f t r.pid r.gva r.len).2 with
          | error e => exact Nat.le_refl _
          | ok extents =>
              rw [Book.verdict]
              split
              · exact Nat.zero_le _
              · split
                · exact Nat.le_refl _
                · exact Nat.le_refl _
        have hrest := ih (f t r.pid r.gva r.len).1
          (b.applyAll (b.verdict i r (f t r.pid r.gva r.len).2)) (i + 1)
        rw [List.length_append, List.length_cons]
        omega
      · exact Nat.le_succ_of_le (ih t b (i + 1))

/-- An operation makes no more changes than there are slots. -/
theorem Effect.length_le (h : Effect f t b op cs out) (hb : b.Sound) :
  cs.length ≤ regionCapacity
  := by
  cases h with
  | swept => exact Nat.le_trans (length_sweep f t b 0 b.regions) hb.count
  | stranger _ => exact Nat.zero_le _
  | refused _ => exact Nat.zero_le _
  | unknown _ => exact Nat.zero_le _
  | registered _ _ _ _ _ => exact Nat.le_of_ble_eq_true rfl
  | stranded _ _ _ _ _ => exact Nat.le_of_ble_eq_true rfl
  | unregistered _ _ _ => exact Nat.le_of_ble_eq_true rfl

/-- The operation ends with the effect: the server keeps the changed book, and the manifest has
the writes of the changes. -/
structure Performs (dbg : Bool) (f : Translator τ) (s : RegionIpc τ) (b : Book) (op : Operation)
    (cs : List Change) (out : Option Reply) (s' : RegionIpc τ) : Prop where
  run : (perform dbg f op).run s = (s', .ok out)
  keeps : s'.Keeps (b.applyAll cs)
  manifest : s'.manifest = s.manifest.writeAll (b.log cs)

/-- The operation panics, because the generation has reached the end of its range. -/
def Exhausts (dbg : Bool) (f : Translator τ) (s : RegionIpc τ) (b : Book) (op : Operation) : Prop :=
  ((perform dbg f op).run s).2 = .panic ∧ dbg = true ∧
    2 ^ 64 ≤ b.generation.toNat + 2 * regionCapacity

theorem performs_request {dbg : Bool} {reply : Reply} {req : Request} {pid : Int32}
    {workloadPid : Option Int32} {s' : RegionIpc τ}
    (hrun : (RegionIpc.handle dbg f req pid workloadPid).run s = (s', .ok reply))
    (hkeeps : s'.Keeps (b.applyAll cs)) (hmanifest : s'.manifest = s.manifest.writeAll (b.log cs)) :
  Performs dbg f s b (.request req pid workloadPid) cs (some reply) s'
  := by
  refine ⟨?_, hkeeps, hmanifest⟩
  rw [perform, Exec.run_bind_of_ok hrun]
  rfl

theorem performs_sweep {dbg : Bool} {s' : RegionIpc τ}
    (hrun : (RegionIpc.reverify dbg f).run s = (s', .ok ())) (hkeeps : s'.Keeps (b.applyAll cs))
    (hmanifest : s'.manifest = s.manifest.writeAll (b.log cs)) :
  Performs dbg f s b .reverify cs none s'
  := by
  refine ⟨?_, hkeeps, hmanifest⟩
  rw [perform, Exec.run_bind_of_ok hrun]
  rfl

theorem performs_nothing {dbg : Bool} {reply : Reply} {req : Request} {pid : Int32}
    {workloadPid : Option Int32} (hs : s.Keeps b) {t : τ}
    (hrun : (RegionIpc.handle dbg f req pid workloadPid).run s = (s.asked t, .ok reply)) :
  Performs dbg f s b (.request req pid workloadPid) [] (some reply) (s.asked t)
  := by
  exact performs_request hrun ⟨hs.stored, hs.records⟩ rfl

theorem exhausts_of_overflows {dbg : Bool} {req : Request} {pid : Int32}
    {workloadPid : Option Int32}
    (h : RegionIpc.Overflows dbg (RegionIpc.handle dbg f req pid workloadPid) s b.generation) :
  Exhausts dbg f s b (.request req pid workloadPid)
  := by
  refine ⟨Exec.panic_of_bind h.1, h.2.1, ?_⟩
  rw [RegionIpc.last_generation h.2.2]
  decide

/-- A registration that there is room for publishes the region.  It is in the ledger only when the
generation has 32 bits. -/
theorem perform_register {flags layoutVersion nameId : UInt32} {gva len : UInt64} {name : Bytes}
    {pid : Int32} {extents : List Extent} (dbg : Bool) (hs : s.Keeps b)
    (hflags : flags &&& regionFlagDead = 0) (hname : name ≠ [])
    (hlength : name.length ≤ maxRegionName)
    (hanswer : (f s.translator pid gva len).2 = .ok extents)
    (hcount : b.regions.length < regionCapacity)
    (hpool : b.pool + extents.length ≤ extentCapacity) :
  ∃ cs out, Effect f s.translator b
      (.request (.register flags layoutVersion nameId gva len name) pid (some pid)) cs out ∧
    b.AllowsAll cs ∧
    ((∃ s', Performs dbg f s b
      (.request (.register flags layoutVersion nameId gva len name) pid (some pid)) cs out s') ∨
    Exhausts dbg f s b
      (.request (.register flags layoutVersion nameId gva len name) pid (some pid)))
  := by
  let r : Region :=
    { name, nameId, layoutVersion, flags, pid, gva, len, extentOff := b.pool, extents
      dead := false, owned := decide ((b.generation + 2).toNat < 2 ^ 32)
      fits := hlength, alive := hflags }
  have hallows : b.Allows (.publish r) := .publish hcount hpool rfl rfl
  have hall : b.AllowsAll [.publish r] := .cons hallows (.nil _)
  have hlog : b.log [.publish r] = sealedWrites b.generation
      (publishWrites b.generation b.regions.length b.pool r) := by
    rw [Book.log, Book.writes, Book.log, List.append_nil]
  have hask : f s.translator r.pid r.gva r.len = ((f s.translator pid gva len).1, .ok r.extents) :=
    Prod.ext rfl hanswer
  have hrun := RegionIpc.run_handle_published dbg hs.stored.headed hask hcount hpool rfl rfl
  by_cases hsmall : (b.generation + 2).toNat < 2 ^ 32
  · have howned : r.owned = true := decide_eq_true hsmall
    refine ⟨_, _, .registered hanswer hname howned hallows hsmall, hall, ?_⟩
    rcases hrun with hdone | hover
    · left
      rw [if_pos hsmall] at hdone
      refine ⟨_, performs_request hdone ⟨?_, ?_⟩ ?_⟩
      · have hstored := hs.stored.applyAll hall
        rw [hlog] at hstored
        exact hstored
      · change s.records ++ [r.record b.regions.length] = (b.publish r).ledger
        rw [Book.ledger_publish, if_pos howned, hs.records]
      · rw [hlog]
        rfl
    · exact .inr (exhausts_of_overflows hover)
  · have howned : r.owned = false := decide_eq_false hsmall
    refine ⟨_, _, .stranded hanswer hname howned hallows (Nat.not_lt.mp hsmall), hall, ?_⟩
    rcases hrun with hdone | hover
    · left
      rw [if_neg hsmall] at hdone
      refine ⟨_, performs_request hdone ⟨?_, ?_⟩ ?_⟩
      · have hstored := hs.stored.applyAll hall
        rw [hlog] at hstored
        exact hstored
      · change s.records = (b.publish r).ledger
        rw [Book.ledger_publish, if_neg (by rw [howned]; decide), List.append_nil, hs.records]
      · rw [hlog]
        rfl
    · exact .inr (exhausts_of_overflows hover)

/-- A region that is in the ledger and live is taken back, and no other. -/
theorem perform_unregister (dbg : Bool) (hs : s.Keeps b) (regionId : UInt32) (pid : Int32) :
  ∃ cs out, Effect f s.translator b (.request (.unregister regionId) pid (some pid)) cs out ∧
    b.AllowsAll cs ∧
    ((∃ s', Performs dbg f s b (.request (.unregister regionId) pid (some pid)) cs out s') ∨
    Exhausts dbg f s b (.request (.unregister regionId) pid (some pid)))
  := by
  cases hfind : s.records.find? fun r => r.regionId = regionId ∧ r.dead = false with
  | none =>
      refine ⟨[], _, .unknown ?_, .nil b, .inl ⟨s, ?_⟩⟩
      · intro record hmem hid
        rw [← hs.records] at hmem
        have hnot := List.find?_eq_none.mp hfind record hmem
        rw [decide_eq_true_eq, not_and, Bool.not_eq_false] at hnot
        exact hnot hid
      · exact performs_nothing hs (t := s.translator) (RegionIpc.run_handle_unknown hfind)
  | some record =>
      have hlive := List.find?_some hfind
      rw [decide_eq_true_eq] at hlive
      have hmem := List.mem_of_find?_eq_some hfind
      rw [hs.records] at hmem
      obtain ⟨i, r, hr, howned, rfl⟩ := Book.mem_ledger.mp hmem
      obtain rfl : UInt32.ofNat i = regionId := hlive.1
      have hdead : r.dead = false := hlive.2
      have hall : b.AllowsAll [.bury i] := .cons (.bury hr hdead howned) (.nil _)
      have hlog : b.log [.bury i] = sealedWrites b.generation
          (Slice.fieldsAt (RegionEntry.offset i) (r.bury.entry i).fields) := by
        rw [Book.log, Book.writes, hr, Book.log, List.append_nil]
      refine ⟨_, _, .unregistered hr howned hdead, hall, ?_⟩
      have hslot := (hs.stored.sound.toNat_slot hr).2
      have hrun : (RegionIpc.handle dbg f (.unregister (UInt32.ofNat i)) pid (some pid)).run s = _ ∨
          RegionIpc.Overflows dbg (RegionIpc.handle dbg f (.unregister (UInt32.ofNat i)) pid
            (some pid)) s b.generation :=
        RegionIpc.run_handle_unregister dbg hs.stored.headed hslot hfind
      rcases hrun with hdone | hover
      · left
        rw [hs.stored.listed.deadEntry hr hdead] at hdone
        refine ⟨_, performs_request hdone ⟨?_, ?_⟩ ?_⟩
        · have hstored := hs.stored.applyAll hall
          rw [hlog] at hstored
          exact hstored
        · change RegionIpc.killRecord (UInt32.ofNat i) s.records = (b.bury i).ledger
          rw [hs.records, Book.killRecord_ledger hs.stored.sound hr howned hdead]
        · rw [hlog]
          rfl
      · exact .inr (exhausts_of_overflows hover)

/-- Every operation on a server that keeps a book has an effect on the book. -/
theorem perform_effect (dbg : Bool) (hs : s.Keeps b) (hop : op.Possible) :
  ∃ cs out, Effect f s.translator b op cs out ∧ b.AllowsAll cs ∧
    ((∃ s', Performs dbg f s b op cs out s') ∨ Exhausts dbg f s b op)
  := by
  cases op with
  | reverify =>
      obtain ⟨hallows, hrun⟩ := RegionIpc.run_reverify dbg f hs
      refine ⟨_, none, .swept, hallows, ?_⟩
      rcases hrun with ⟨vnanos, emitted, hdone⟩ | ⟨hpanic, hdbg, hbound⟩
      · exact .inl ⟨_, performs_sweep hdone ⟨hs.stored.applyAll hallows, rfl⟩ rfl⟩
      · right
        have hcount := hs.stored.sound.count
        exact ⟨Exec.panic_of_bind hpanic, hdbg, by omega⟩
  | request req pid workloadPid =>
      by_cases hpid : workloadPid = some pid
      · subst hpid
        obtain ⟨bytes, hreq⟩ := hop
        cases req with
        | unregister regionId => exact perform_unregister dbg hs regionId pid
        | register flags layoutVersion nameId gva len name =>
            obtain ⟨hflags, hname, hlength⟩ := decodeRequest_register hreq
            cases hrefusal : RegionIpc.refusal b.regions.length b.pool
              (f s.translator pid gva len).2 with
            | some status =>
                refine ⟨[], _, .refused hrefusal, .nil b, .inl ⟨_, performs_nothing hs
                  (t := (f s.translator pid gva len).1) ?_⟩⟩
                exact RegionIpc.run_handle_refused hs.stored.headed hlength hflags hrefusal
            | none =>
                obtain ⟨extents, hanswer, hcount, hpool⟩ := refusal_eq_none hrefusal
                exact perform_register dbg hs hflags hname hlength hanswer hcount hpool
      · refine ⟨[], _, .stranger hpid, .nil b, .inl ⟨s, ?_⟩⟩
        exact performs_nothing hs (t := s.translator) (RegionIpc.run_handle_stranger hpid)

end Effects

/-! ### Runs -/

section Runs

variable {τ : Type}

/-- A server without regions, behind `init_manifest`. -/
def initial (m : ByteMem) (t : τ) : RegionIpc τ :=
  { records := []
    translator := t
    manifest := (initManifest.run ⟨m, manifestTotalSize, []⟩).1
    vnanos := 0
    emitted := [] }

/-- A step of a run: an operation with its reply, and the states before and after it. -/
structure Step (τ : Type) where
  before : RegionIpc τ
  op : Operation
  out : Option Reply
  after : RegionIpc τ

/-- The runs of the server from a state, with their steps, newest first. -/
inductive Run (dbg : Bool) (f : Translator τ) (s₀ : RegionIpc τ) :
    List (Step τ) → RegionIpc τ → Prop
  | nil : Run dbg f s₀ [] s₀
  | step {xs : List (Step τ)} {s s' : RegionIpc τ} {op : Operation} {out : Option Reply}
      (hrun : Run dbg f s₀ xs s) (hop : op.Possible)
      (hstep : (perform dbg f op).run s = (s', .ok out)) :
      Run dbg f s₀ (⟨s, op, out, s'⟩ :: xs) s'

variable {dbg : Bool} {f : Translator τ} {m : ByteMem} {t : τ} {xs : List (Step τ)}
  {s s' : RegionIpc τ} {b : Book} {op : Operation} {cs : List Change} {out : Option Reply}

theorem keeps_initial (m : ByteMem) (t : τ) :
  (initial m t).Keeps (Book.vacant 0)
  := by
  have hrun : (initial m t).manifest
      = Slice.writeAll ⟨m, manifestTotalSize, []⟩ (Slice.fieldsAt 0 (canonicalHeader 0 0 0).fields) :=
    congrArg Prod.fst (ManifestHeader.run_writeTo (Nat.le_of_ble_eq_true rfl))
  have hvacant := stored_vacant m t (g := 0) rfl
  refine ⟨⟨?_, ⟨?_, ?_, ?_⟩, hvacant.sound⟩, rfl⟩
  · rw [hrun, Slice.writeAll_len]
  · rw [hrun, Slice.writeAll_fieldsAt_mem]
    exact hvacant.listed.header
  · intro i r hr
    cases hr
  · intro i r hr
    cases hr

/-- What holds of the empty book, and is kept by each effect, holds of the book that is kept behind
any run. -/
theorem Run.induct {P : List (Step τ) → RegionIpc τ → Book → Prop}
    (hrun : Run dbg f (initial m t) xs s) (hstart : P [] (initial m t) (Book.vacant 0))
    (hstep : ∀ (xs : List (Step τ)) (s s' : RegionIpc τ) (b : Book) (op : Operation)
      (cs : List Change) (out : Option Reply), s.Keeps b → P xs s b →
        Effect f s.translator b op cs out → b.AllowsAll cs → Performs dbg f s b op cs out s' →
          P (⟨s, op, out, s'⟩ :: xs) s' (b.applyAll cs)) :
  ∃ b, s.Keeps b ∧ P xs s b
  := by
  induction hrun with
  | nil => exact ⟨Book.vacant 0, keeps_initial m t, hstart⟩
  | @step xs s s' op out hrun hop hone ih =>
      obtain ⟨b, hs, hP⟩ := ih
      obtain ⟨cs, out', heffect, hallows, ⟨s'', hdone⟩ | hexhausts⟩ :=
        perform_effect (f := f) dbg hs hop
      · obtain ⟨rfl, hout⟩ := Prod.mk.inj (hone.symm.trans hdone.run)
        obtain rfl := Res.ok.inj hout
        exact ⟨b.applyAll cs, hdone.keeps, hstep xs s s' b op cs out hs hP heffect hallows hdone⟩
      · have hpanic := hexhausts.1
        rw [hone] at hpanic
        cases hpanic

/-- The operation is a request that strands a region. -/
def Operation.Strands (f : Translator τ) (s : RegionIpc τ) : Operation → Prop
  | .request req pid workloadPid => Regions.Strands f s req pid workloadPid
  | .reverify => False

/-- A sweep publishes nothing. -/
theorem publish_not_mem_sweep (f : Translator τ) (t : τ) (b : Book) (i : Nat) (rs : List Region)
    (r : Region) :
  .publish r ∉ (Book.sweep f t b i rs).2
  := by
  induction rs generalizing t b i with
  | nil => exact List.not_mem_nil
  | cons r₁ rs ih =>
      rw [Book.sweep]
      split
      · intro hmem
        rcases List.mem_append.mp hmem with hone | hrest
        · cases hanswer : (f t r₁.pid r₁.gva r₁.len).2 with
          | error e =>
              rw [hanswer] at hone
              cases List.mem_singleton.mp hone
          | ok extents =>
              rw [hanswer, Book.verdict] at hone
              split at hone
              · cases hone
              · split at hone
                · cases List.mem_singleton.mp hone
                · cases List.mem_singleton.mp hone
        · exact ih _ _ _ hrest
      · exact ih _ _ _

/-- A region that is stranded is published under a generation of more than 32 bits. -/
theorem Effect.owned (h : Effect f s.translator b op cs out) (hs : s.Keeps b)
    (hkeep : ¬ op.Strands f s) {r : Region} (hr : .publish r ∈ cs) :
  r.owned = true
  := by
  cases h with
  | stranger _ => cases hr
  | refused _ => cases hr
  | unknown _ => cases hr
  | unregistered _ _ _ => cases List.mem_singleton.mp hr
  | swept => exact absurd hr (publish_not_mem_sweep f s.translator b 0 b.regions r)
  | registered _ _ howned _ _ =>
      cases List.mem_singleton.mp hr
      exact howned
  | @stranded r₁ hanswer hname howned hallows hgen =>
      cases hallows with
      | publish hcount hpool hoff hdead =>
          refine absurd ⟨rfl, ⟨_, _, _, _, _, _, rfl, ?_⟩, ?_⟩ hkeep
          · rw [regionCount_eq hs.stored, extentCount_eq hs.stored, hanswer, RegionIpc.refusal,
              if_neg (Nat.not_le.mpr hcount), if_neg (Nat.not_lt.mpr hpool)]
          · rw [generation_eq hs.stored]
            exact hgen

theorem owned_applyAll (hallows : b.AllowsAll cs) (hregions : ∀ r ∈ b.regions, r.owned = true)
    (hpublish : ∀ r, .publish r ∈ cs → r.owned = true) :
  ∀ r ∈ (b.applyAll cs).regions, r.owned = true
  := by
  induction hallows with
  | nil b => exact hregions
  | @cons b c cs hc _ ih =>
      apply ih _ fun r hr => hpublish r (List.mem_cons_of_mem _ hr)
      have hset : ∀ (i : Nat) (r' : Region), r'.owned = true →
          ∀ r ∈ b.regions.set i r', r.owned = true := by
        intro i r' howned r hr
        rcases List.mem_or_eq_of_mem_set hr with hold | rfl
        · exact hregions r hold
        · exact howned
      cases hc with
      | @publish r₁ hcount hpool hoff hdead =>
          intro r hr
          rcases List.mem_append.mp hr with hold | hnew
          · exact hregions r hold
          · obtain rfl := List.mem_singleton.mp hnew
            exact hpublish r List.mem_cons_self
      | @bury i r₁ hr₁ hdead howned =>
          rw [Book.apply, Book.bury_regions hr₁]
          exact hset i r₁.bury howned
      | @move i r₁ extents hr₁ hdead howned hfit =>
          rw [Book.apply, Book.move_eq hr₁]
          exact hset i _ howned

/-- In a run that strands no region the server owns all regions. -/
theorem Run.owned (hrun : Run dbg f (initial m t) xs s)
    (hkeep : ∀ x ∈ xs, ¬ x.op.Strands f x.before) :
  ∃ b, s.Keeps b ∧ ∀ r ∈ b.regions, r.owned = true
  := by
  obtain ⟨b, hs, hall⟩ := hrun.induct (P := fun xs _ b =>
    (∀ x ∈ xs, ¬ x.op.Strands f x.before) → ∀ r ∈ b.regions, r.owned = true)
    (fun _ r hr => nomatch hr) (by
      intro xs s s' b op cs out hs ih heffect hallows _ hkeep
      apply owned_applyAll hallows
      · exact ih fun x hx => hkeep x (List.mem_cons_of_mem _ hx)
      · intro r hr
        exact heffect.owned hs (hkeep _ List.mem_cons_self) hr)
  exact ⟨b, hs, hall hkeep⟩

/-! ### The manifest and the ledger in every run -/

/-- The generation is below the last one with 32 bits. -/
def Early (s : RegionIpc τ) : Prop :=
  (ManifestHeader.ofMem s.manifest.mem).generation.toNat < 2 ^ 32 - 2

theorem Early.not_strands (h : Early s) (op : Operation) :
  ¬ op.Strands f s
  := by
  cases op with
  | reverify => exact id
  | request req pid workloadPid =>
      rintro ⟨_, _, hlarge⟩
      rw [Early] at h
      rw [UInt64.toNat_add] at hlarge
      simp only [UInt64.reduceToNat] at hlarge
      omega

/-- An operation returns.  It writes the manifest in brackets and raises the generation by two for
each, and a request fails internally only when the translator does, without a write. -/
structure Serves (dbg : Bool) (f : Translator τ) (s : RegionIpc τ) (op : Operation)
    (out : Option Reply) (s' : RegionIpc τ) : Prop where
  run : (perform dbg f op).run s = (s', .ok out)
  brackets : ∃ ws k, s'.manifest = s.manifest.writeAll ws ∧
    Seqlock.Bracketed offGeneration (ManifestHeader.ofMem s.manifest.mem).generation ws k ∧
    (ManifestHeader.ofMem s'.manifest.mem).generation.toNat
      = (ManifestHeader.ofMem s.manifest.mem).generation.toNat + 2 * k
  internal : ∀ reply, out = some reply → reply.status = Status.internal.toU16 →
    s'.manifest = s.manifest ∧
      ∃ flags layoutVersion nameId gva len name pid,
        op = .request (.register flags layoutVersion nameId gva len name) pid (some pid) ∧
          (f s.translator pid gva len).2 = .error (.translate .io)

theorem internal_of_refusal {n p : Nat} {answer : Except BuildExtentsError (List Extent)}
    {status : Status} (h : RegionIpc.refusal n p answer = some status)
    (hstatus : status.toU16 = Status.internal.toU16) :
  answer = .error (.translate .io)
  := by
  have hinternal : status = .internal := by
    cases status <;> first | rfl | exact absurd hstatus (by decide)
  subst hinternal
  cases answer with
  | error e =>
      cases e with
      | tooManyExtents => cases Option.some.inj h
      | translate e =>
          cases e with
          | io => rfl
          | notPresent vaddr => cases Option.some.inj h
          | swapped vaddr => cases Option.some.inj h
          | pfnHidden vaddr => cases Option.some.inj h
  | ok extents =>
      rw [RegionIpc.refusal] at h
      split at h
      · cases Option.some.inj h
      · split at h
        · cases Option.some.inj h
        · cases h

/-- An operation on a server that keeps a book under an early generation is served. -/
theorem serves_of_keeps (dbg : Bool) (f : Translator τ) (hs : s.Keeps b) (hearly : Early s)
    (hop : op.Possible) :
  ∃ out s', Serves dbg f s op out s'
  := by
  obtain ⟨cs, out, heffect, hallows, ⟨s', hdone⟩ | ⟨_, _, hlast⟩⟩ :=
    perform_effect (f := f) dbg hs hop
  · have hgen := generation_eq hs.stored
    have hgen' := generation_eq hdone.keeps.stored
    have hlen := heffect.length_le hs.stored.sound
    have hsmall := hearly
    rw [Early, hgen] at hsmall
    refine ⟨out, s', hdone.run, ⟨b.log cs, cs.length, hdone.manifest, ?_, ?_⟩, ?_⟩
    · rw [hgen]
      exact Book.bracketed_log hallows
    · rw [hgen, hgen', Book.generation_applyAll hallows, UInt64.toNat_add, UInt64.toNat_ofNat']
      simp only [regionCapacity] at hlen
      omega
    · intro reply hout hstatus
      have hok : Status.ok.toU16 ≠ Status.internal.toU16 := by decide
      cases heffect with
      | stranger _ =>
          cases Option.some.inj hout
          exact absurd hstatus (by decide)
      | unknown _ =>
          cases Option.some.inj hout
          exact absurd hstatus (by decide)
      | registered _ _ _ _ _ =>
          cases Option.some.inj hout
          exact absurd hstatus hok
      | unregistered _ _ _ =>
          cases Option.some.inj hout
          exact absurd hstatus hok
      | swept => cases hout
      | refused hrefusal =>
          cases Option.some.inj hout
          exact ⟨hdone.manifest, _, _, _, _, _, _, _, rfl, internal_of_refusal hrefusal hstatus⟩
      | stranded _ _ _ _ hlarge =>
          rw [UInt64.toNat_add] at hlarge
          simp only [UInt64.reduceToNat] at hlarge
          omega
  · have hsmall := hearly
    rw [Early, generation_eq hs.stored] at hsmall
    simp only [regionCapacity] at hlast
    omega

/-- In every run under early generations the manifest and the ledger agree, and each operation
that comes next is served. -/
theorem registry_run (dbg : Bool) (f : Translator τ) (m : ByteMem) (t : τ) (xs : List (Step τ))
    (s : RegionIpc τ) (hrun : Run dbg f (initial m t) xs s) (hearly : ∀ x ∈ xs, Early x.before) :
  Agrees s ∧ (Early s → ∀ op : Operation, op.Possible → ∃ out s', Serves dbg f s op out s')
  := by
  obtain ⟨b, hs, howned⟩ := hrun.owned fun x hx => (hearly x hx).not_strands x.op
  exact ⟨agrees_of_keeps hs howned, fun hnow op hop => serves_of_keeps dbg f hs hnow hop⟩

/-- A translator that finds a range one page further on at each call. -/
def wanderingTranslator : Translator UInt64 := fun t _ gva len =>
  (t + 0x1000, .ok [⟨gva + t, len⟩])

/-- A datagram that asks to register the two pages at `0x3000` under the name `b`. -/
def siblingDatagram : Bytes :=
  [0x44, 0x47, 0x52, 0x52, 1, 0, 1, 0, 0, 0, 0, 0, 1, 0, 0, 0, 2, 0, 0, 0, 0, 0x30, 0, 0, 0, 0, 0,
    0, 0, 0x20, 0, 0, 0, 0, 0, 0, 1, 0, 0x62]

/-- The request of the datagram. -/
def siblingRequest : Request := .register 0 1 2 0x3000 0x2000 [0x62]

/-- The state behind an operation. -/
def performed (f : Translator τ) (op : Operation) (s : RegionIpc τ) : RegionIpc τ :=
  ((perform true f op).run s).1

/-- The server over the zeroed area. -/
def startRegions : RegionIpc UInt64 := initial (fun _ => 0) 0

/-- The server with the sample region. -/
def oneRegion : RegionIpc UInt64 :=
  performed wanderingTranslator (.request sampleRequest 7 (some 7)) startRegions

/-- The server with both regions. -/
def twoRegions : RegionIpc UInt64 :=
  performed wanderingTranslator (.request siblingRequest 7 (some 7)) oneRegion

/-- The server behind a sweep that finds both regions at other places. -/
def sweptRegions : RegionIpc UInt64 := performed wanderingTranslator .reverify twoRegions

/-- The server behind the end of the sample region. -/
def leftRegion : RegionIpc UInt64 :=
  performed wanderingTranslator (.request (.unregister 0) 7 (some 7)) sweptRegions

/-- Two registrations and a sweep. -/
def sweptSteps : List (Step UInt64) :=
  [⟨twoRegions, .reverify, none, sweptRegions⟩,
    ⟨oneRegion, .request siblingRequest 7 (some 7), some ⟨Status.ok.toU16, 1, 2, 4⟩, twoRegions⟩,
    ⟨startRegions, .request sampleRequest 7 (some 7), some ⟨Status.ok.toU16, 0, 1, 2⟩, oneRegion⟩]

/-- Two registrations, a sweep, and a request to take the sample region back. -/
def leftSteps : List (Step UInt64) :=
  ⟨sweptRegions, .request (.unregister 0) 7 (some 7), some ⟨Status.ok.toU16, 0, 1, 10⟩, leftRegion⟩
    :: sweptSteps

theorem run_sweptSteps :
  Run true wanderingTranslator startRegions sweptSteps sweptRegions
  := by
  refine .step (.step (.step .nil ⟨sampleDatagram, rfl⟩ ?_) ⟨siblingDatagram, rfl⟩ ?_) trivial ?_
  · exact Prod.ext rfl (by decide +kernel)
  · exact Prod.ext rfl (by decide +kernel)
  · exact Prod.ext rfl (by decide +kernel)

theorem run_leftSteps :
  Run true wanderingTranslator startRegions leftSteps leftRegion
  := by
  refine .step run_sweptSteps ⟨[0x44, 0x47, 0x52, 0x52, 1, 0, 2, 0, 0, 0, 0, 0], rfl⟩ ?_
  exact Prod.ext rfl (by decide +kernel)

/-- Two registrations, a sweep in which both regions drift, and the end of one of them: the manifest
and the ledger agree, and whatever comes next is served. -/
theorem registry_run_sample :
  (twoRegions.records.map RegionRecord.extents, sweptRegions.records.map RegionRecord.extents)
      = ([[⟨0x1000, 1⟩], [⟨0x4000, 0x2000⟩]], [[⟨0x3000, 1⟩], [⟨0x6000, 0x2000⟩]]) ∧
    Agrees leftRegion ∧ ∀ op : Operation, op.Possible →
      ∃ out s', Serves true wanderingTranslator leftRegion op out s'
  := by
  have hearly : ∀ x ∈ leftSteps, Early x.before := by
    intro x hx
    simp only [leftSteps, sweptSteps, List.mem_cons, List.not_mem_nil, or_false] at hx
    rcases hx with rfl | rfl | rfl | rfl <;> rw [Early] <;> decide +kernel
  obtain ⟨hagrees, hserves⟩ := registry_run true wanderingTranslator (fun _ => 0) 0 leftSteps
    leftRegion run_leftSteps hearly
  refine ⟨by decide +kernel, hagrees, hserves ?_⟩
  rw [Early]
  decide +kernel

end Runs

end Protocol.Regions
