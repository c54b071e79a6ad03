import DetGuest.Agent.Ready
import DetGuest.Protocol.Registry
import Mathlib.Data.List.Forall2

/-!
# The regions of a run

The requests and replies of a run tell which regions were registered, and which of them were taken
back or died.  The book that the server keeps has the same regions.  The region count of the
manifest counts the slots, so that it is the number of these regions as long as none was lost.
-/

namespace Protocol.Regions

open Wire Wire.Regionipc Agent

variable {τ : Type}

/-! ### What a run tells -/

/-- A region as it was registered. -/
structure Registration where
  regionId : UInt32
  name : Bytes
  nameId : UInt32
  layoutVersion : UInt32
  flags : UInt32
  gva : UInt64
  len : UInt64
  deriving DecidableEq, Repr

/-- The region that a step registers. -/
def Step.registered (x : Step τ) : Option Registration :=
  match x.op, x.out with
  | .request (.register flags layoutVersion nameId gva len name) _ _, some reply =>
      if reply.status = Status.ok.toU16 then
        some { regionId := reply.regionId, name, nameId, layoutVersion, flags, gva, len }
      else
        none
  | _, _ => none

/-- The region that a step publishes, whatever it answers: the region count of the manifest is raised
and the region is in the slot behind the others. -/
def Step.published (x : Step τ) : Option Registration :=
  match x.op with
  | .request (.register flags layoutVersion nameId gva len name) _ _ =>
      let count := (ManifestHeader.ofMem x.before.manifest.mem).regionCount
      if (ManifestHeader.ofMem x.after.manifest.mem).regionCount = count then
        none
      else
        some { regionId := count, name, nameId, layoutVersion, flags, gva, len }
  | _ => none

/-- What a step publishes, or what it registers. -/
def Step.adds (all : Bool) (x : Step τ) : Option Registration :=
  if all then x.published else x.registered

/-- A step takes a region back, or it is a sweep behind which its entry is dead. -/
def Step.ends (x : Step τ) (regionId : UInt32) : Bool :=
  match x.op, x.out with
  | .request (.unregister id) _ _, some reply =>
      decide (id = regionId) && decide (reply.status = Status.ok.toU16)
  | .reverify, _ => !(RegionEntry.ofMem x.after.manifest.mem regionId.toNat).isLive
  | _, _ => false

/-- The regions that were registered in a run and have not ended since, oldest first. -/
def living : List (Step τ) → List Registration
  | [] => []
  | x :: xs => (living xs).filter (fun reg => !x.ends reg.regionId) ++ x.registered.toList

/-- The regions that were published in a run and have not ended since, in the order of their slots. -/
def shown : List (Step τ) → List Registration
  | [] => []
  | x :: xs => (shown xs).filter (fun reg => !x.ends reg.regionId) ++ x.published.toList

/-- All regions that were registered in a run. -/
def registrations (xs : List (Step τ)) : List Registration := xs.filterMap Step.registered

/-! ### What a book tells -/

/-- The registration of a region in the given slot. -/
def registration (r : Region) (i : Nat) : Registration :=
  { regionId := UInt32.ofNat i
    name := r.name
    nameId := r.nameId
    layoutVersion := r.layoutVersion
    flags := r.flags
    gva := r.gva
    len := r.len }

/-- A region that lives and, unless all regions are listed, is owned by the server. -/
def isListed (all : Bool) (r : Region) : Bool := (all || r.owned) && !r.dead

/-- The registrations of the listed regions, from slot `n` on. -/
def rosterFrom (all : Bool) (n : Nat) (rs : List Region) : List Registration :=
  ((rs.zipIdx n).filter fun x => isListed all x.1).map fun x => registration x.1 x.2

/-- The registrations of a book: of all live regions, or of those that the server owns. -/
def roster (all : Bool) (b : Book) : List Registration := rosterFrom all 0 b.regions

/-- A region was changed to another one of the same registration, and is not revived. -/
structure Kin (r r' : Region) : Prop where
  registration : registration r' = registration r
  owned : r'.owned = r.owned
  dead : r.dead = true → r'.dead = true

theorem Kin.refl (r : Region) :
  Kin r r
  := ⟨rfl, rfl, id⟩

theorem Kin.listed {r r' : Region} (h : Kin r r') (all : Bool) :
  isListed all r' = (isListed all r && !r'.dead)
  := by
  rw [isListed, isListed, h.owned]
  cases hdead : r.dead with
  | false => rw [Bool.not_false, Bool.and_true]
  | true => rw [h.dead hdead, Bool.not_true, Bool.and_false, Bool.and_false]

theorem Kin.trans {r r' r'' : Region} (h : Kin r r') (h' : Kin r' r'') :
  Kin r r''
  := ⟨h'.registration.trans h.registration, h'.owned.trans h.owned, fun hdead =>
    h'.dead (h.dead hdead)⟩

theorem Kin.bury (r : Region) :
  Kin r r.bury
  := ⟨rfl, rfl, fun _ => rfl⟩

theorem Kin.move (r : Region) (extentOff : Nat) (extents : List Extent) :
  Kin r (r.move extentOff extents)
  := ⟨rfl, rfl, id⟩

theorem forall₂_set {r r' : Region} {rs : List Region} {i : Nat} (hr : rs[i]? = some r)
    (hkin : Kin r r') :
  List.Forall₂ Kin rs (rs.set i r')
  := by
  induction rs generalizing i with
  | nil => cases hr
  | cons r₁ rs ih =>
      have hsame : List.Forall₂ Kin rs rs := List.forall₂_same.mpr fun r _ => Kin.refl r
      cases i with
      | zero =>
          obtain rfl := Option.some.inj hr
          exact .cons hkin hsame
      | succ i => exact .cons (Kin.refl r₁) (ih hr)

theorem forall₂_trans {rs rs' rs'' : List Region} (h : List.Forall₂ Kin rs rs')
    (h' : List.Forall₂ Kin rs' rs'') :
  List.Forall₂ Kin rs rs''
  := by
  induction h generalizing rs'' with
  | nil => exact h'
  | cons hone _ ih =>
      cases h' with
      | cons hone' hrest' => exact .cons (hone.trans hone') (ih hrest')

section Books

variable {b : Book} {cs : List Change} {r : Region}

/-- Changes that publish nothing change each region to one of the same registration. -/
theorem forall₂_applyAll (hallows : b.AllowsAll cs) (hquiet : ∀ r, .publish r ∉ cs) :
  List.Forall₂ Kin b.regions (b.applyAll cs).regions
  := by
  induction hallows with
  | nil b => exact List.forall₂_same.mpr fun r _ => Kin.refl r
  | @cons b c cs hc _ ih =>
      have hrest := ih fun r hr => hquiet r (List.mem_cons_of_mem _ hr)
      refine forall₂_trans ?_ hrest
      cases hc with
      | @publish r₁ hcount hpool hoff hdead => exact absurd List.mem_cons_self (hquiet r₁)
      | @bury i r₁ hr₁ hdead howned =>
          rw [Book.apply, Book.bury_regions hr₁]
          exact forall₂_set hr₁ (Kin.bury r₁)
      | @move i r₁ extents hr₁ hdead howned hfit =>
          rw [Book.apply, Book.move_eq hr₁]
          exact forall₂_set hr₁ (Kin.move r₁ _ _)

theorem rosterFrom_cons (all : Bool) (n : Nat) (r : Region) (rs : List Region) :
  rosterFrom all n (r :: rs)
    = (if isListed all r then [registration r n] else []) ++ rosterFrom all (n + 1) rs
  := by
  rw [rosterFrom, List.zipIdx_cons, List.filter_cons]
  split
  · rfl
  · rfl

/-- The registrations of changed regions are those of the regions that are still live. -/
theorem rosterFrom_filter (all : Bool) (keep : UInt32 → Bool) {n : Nat} {rs rs' : List Region}
    (h : List.Forall₂ Kin rs rs')
    (hkeep : ∀ (k : Nat) (r r' : Region), rs[k]? = some r → rs'[k]? = some r' →
      r.dead = false → keep (UInt32.ofNat (n + k)) = !r'.dead) :
  rosterFrom all n rs' = (rosterFrom all n rs).filter fun reg => keep reg.regionId
  := by
  induction h generalizing n with
  | nil => rfl
  | @cons r r' rs rs' hkin hrest ih =>
      have htail : rosterFrom all (n + 1) rs'
          = (rosterFrom all (n + 1) rs).filter fun reg => keep reg.regionId := by
        apply ih
        intro k r₁ r₁' hr₁ hr₁' hdead
        rw [Nat.add_assoc, Nat.add_comm 1]
        exact hkeep (k + 1) r₁ r₁' hr₁ hr₁' hdead
      rw [rosterFrom_cons, rosterFrom_cons, List.filter_append, htail, hkin.listed,
        hkin.registration]
      congr 1
      cases hlisted : isListed all r with
      | false => rw [Bool.false_and, if_neg Bool.false_ne_true, List.filter_nil]
      | true =>
          have hdead : r.dead = false := by
            rw [isListed, Bool.and_eq_true, Bool.not_eq_true'] at hlisted
            exact hlisted.2
          have hnow : keep (registration r n).regionId = !r'.dead := hkeep 0 r r' rfl rfl hdead
          rw [Bool.true_and, if_pos rfl, List.filter_cons, hnow, List.filter_nil]

theorem roster_publish (all : Bool) :
  roster all (b.publish r) = roster all b ++
    if isListed all r then [registration r b.regions.length] else []
  := by
  rw [roster, Book.publish, rosterFrom, List.zipIdx_append, List.filter_append, List.map_append,
    Nat.zero_add]
  congr 1
  have hone := rosterFrom_cons all b.regions.length r []
  rw [show rosterFrom all (b.regions.length + 1) [] = [] from rfl, List.append_nil] at hone
  exact hone

theorem mem_roster {all : Bool} {reg : Registration} :
  reg ∈ roster all b ↔ ∃ (i : Nat) (r : Region), b.regions[i]? = some r ∧ isListed all r = true ∧
    reg = registration r i
  := by
  rw [roster, rosterFrom, List.mem_map]
  constructor
  · rintro ⟨⟨r, i⟩, hmem, rfl⟩
    obtain ⟨hmem, hlisted⟩ := List.mem_filter.mp hmem
    exact ⟨i, r, List.mk_mem_zipIdx_iff_getElem?.mp hmem, hlisted, rfl⟩
  · rintro ⟨i, r, hr, hlisted, rfl⟩
    exact ⟨(r, i), List.mem_filter.mpr ⟨List.mk_mem_zipIdx_iff_getElem?.mpr hr, hlisted⟩, rfl⟩

end Books

/-! ### The book tells what the run tells -/

section Living

variable {dbg : Bool} {f : Translator τ} {m : ByteMem} {t : τ} {xs : List (Step τ)}
  {s s' : RegionIpc τ} {b : Book} {op : Operation} {cs : List Change} {out : Option Reply}

theorem filter_ends_of_not {x : Step τ} (h : ∀ id, x.ends id = false) (regs : List Registration) :
  regs.filter (fun reg => !x.ends reg.regionId) = regs
  := by
  apply List.filter_eq_self.mpr
  intro reg _
  rw [h]
  rfl

/-- A request that fails registers nothing and ends nothing. -/
theorem failed_request {x : Step τ} {req : Request} {pid : Int32} {workloadPid : Option Int32}
    {reply : Reply} (hop : x.op = .request req pid workloadPid) (hout : x.out = some reply)
    (hstatus : reply.status ≠ Status.ok.toU16) :
  x.registered = none ∧ ∀ id, x.ends id = false
  := by
  obtain ⟨before, op, out, after⟩ := x
  dsimp only at hop hout
  subst hop hout
  cases req with
  | register flags layoutVersion nameId gva len name =>
      exact ⟨if_neg hstatus, fun id => rfl⟩
  | unregister regionId =>
      refine ⟨rfl, fun id => ?_⟩
      rw [Step.ends]
      dsimp only
      rw [decide_eq_false hstatus, Bool.and_false]

theorem count_eq (hs : s.Keeps b) :
  (ManifestHeader.ofMem s.manifest.mem).regionCount = UInt32.ofNat b.regions.length
  := by
  rw [hs.stored.listed.header]
  rfl

/-- Without a change nothing is published. -/
theorem published_none (hs : s.Keeps b) (hs' : s'.Keeps b) :
  (Step.mk s op out s').published = none
  := by
  cases op with
  | reverify => rfl
  | request req pid workloadPid =>
      cases req with
      | unregister regionId => rfl
      | register flags layoutVersion nameId gva len name =>
          rw [Step.published]
          dsimp only
          rw [count_eq hs, count_eq hs', if_pos rfl]

/-- A registration that changes the book publishes its region in the next slot. -/
theorem published_publish {r : Region} {pid : Int32} {workloadPid : Option Int32}
    (hs : s.Keeps b) (hs' : s'.Keeps (b.publish r)) :
  (Step.mk s (.request (.register r.flags r.layoutVersion r.nameId r.gva r.len r.name) pid
    workloadPid) out s').published = some (registration r b.regions.length)
  := by
  have hlength : (b.publish r).regions.length = b.regions.length + 1 := by
    rw [Book.publish, List.length_append, List.length_singleton]
  have hraised : UInt32.ofNat (b.publish r).regions.length ≠ UInt32.ofNat b.regions.length := by
    intro heq
    have hnat := congrArg UInt32.toNat heq
    rw [hlength, UInt32.toNat_ofNat', UInt32.toNat_ofNat'] at hnat
    omega
  rw [Step.published]
  dsimp only
  rw [count_eq hs, count_eq hs', if_neg hraised]
  rfl

/-- A step changes the registrations of the book as it tells. -/
theorem Effect.roster (all : Bool) (h : Effect f s.translator b op cs out) (hs : s.Keeps b)
    (hallows : b.AllowsAll cs) (hs' : s'.Keeps (b.applyAll cs)) :
  Regions.roster all (b.applyAll cs)
    = (Regions.roster all b).filter (fun reg => !(Step.mk s op out s').ends reg.regionId)
      ++ ((Step.mk s op out s').adds all).toList
  := by
  have hfailed : ∀ {req : Request} {pid : Int32} {workloadPid : Option Int32} {status : Status},
      status.toU16 ≠ Status.ok.toU16 → s'.Keeps b →
      Regions.roster all b
        = (Regions.roster all b).filter (fun reg => !(Step.mk s (.request req pid workloadPid)
          (some (errReply status)) s').ends reg.regionId)
          ++ ((Step.mk s (.request req pid workloadPid) (some (errReply status)) s').adds all).toList
      := by
    intro req pid workloadPid status hstatus hsame
    obtain ⟨hnone, hends⟩ := failed_request (x := Step.mk s (.request req pid workloadPid)
      (some (errReply status)) s') rfl rfl hstatus
    rw [filter_ends_of_not hends, Step.adds, hnone, published_none hs hsame, ite_self,
      Option.toList_none, List.append_nil]
  cases h with
  | stranger _ => exact hfailed (by decide) hs'
  | refused hrefusal => exact hfailed (refusal_ne_ok hrefusal) hs'
  | unknown _ => exact hfailed (by decide) hs'
  | @registered r hanswer hname howned hallows₁ hgen =>
      cases hallows₁ with
      | publish hcount hpool hoff hdead =>
          have hlisted : isListed all r = true := by
            rw [isListed, howned, hdead, Bool.or_true]
            rfl
          change Regions.roster all (b.publish r) = _
          rw [roster_publish, hlisted, if_pos rfl, filter_ends_of_not fun _ => rfl, Step.adds,
            published_publish hs hs']
          cases all <;> rfl
  | @stranded r hanswer hname howned hallows₁ hgen =>
      cases hallows₁ with
      | publish hcount hpool hoff hdead =>
          obtain ⟨hnone, hends⟩ := failed_request (x := Step.mk s (.request (.register r.flags
            r.layoutVersion r.nameId r.gva r.len r.name) r.pid (some r.pid))
              (some (errReply .internal)) s') rfl rfl (by decide)
          change Regions.roster all (b.publish r) = _
          rw [roster_publish, filter_ends_of_not hends, Step.adds, hnone,
            published_publish hs hs', isListed, howned, hdead]
          cases all <;> rfl
  | @unregistered i r pid hr howned hdead =>
      have hquiet : ∀ r, .publish r ∉ [Change.bury i] := by simp
      have hsound := hs.stored.sound
      have hnone : (Step.mk s (.request (.unregister (UInt32.ofNat i)) pid (some pid))
          (some ⟨Status.ok.toU16, UInt32.ofNat i, r.nameId, b.generation + 2⟩) s').adds all
            = none := ite_self none
      rw [hnone, Option.toList_none, List.append_nil]
      apply rosterFrom_filter all (fun id => !Step.ends _ id) (forall₂_applyAll hallows hquiet)
      intro k r₁ r₁' hr₁ hr₁' hdead₁
      have hslots : (b.applyAll [.bury i]).regions = b.regions.set i r.bury := Book.bury_regions hr
      rw [hslots, List.getElem?_set] at hr₁'
      rw [Nat.zero_add, Step.ends]
      dsimp only
      rw [decide_eq_true rfl, Bool.and_true]
      split at hr₁'
      · rename_i heq
        split at hr₁'
        · rw [← Option.some.inj hr₁', heq]
          simp [Region.bury]
        · cases hr₁'
      · rename_i hne
        rw [hr₁] at hr₁'
        obtain rfl := Option.some.inj hr₁'
        have hids : UInt32.ofNat i ≠ UInt32.ofNat k := by
          intro heq
          apply hne
          rw [← (hsound.toNat_slot hr).1, ← (hsound.toNat_slot hr₁).1, heq]
        rw [decide_eq_false hids, hdead₁]
  | swept =>
      have hnone : (Step.mk s .reverify none s').adds all = none := ite_self none
      rw [hnone, Option.toList_none, List.append_nil]
      apply rosterFrom_filter all (fun id => !Step.ends _ id) (forall₂_applyAll hallows
        (publish_not_mem_sweep f s.translator b 0 b.regions))
      intro k r r' hr hr' _
      have hslot := (hs.stored.sound.toNat_slot hr).1
      rw [Nat.zero_add, Step.ends]
      dsimp only
      rw [hslot, hs'.stored.listed.entry k r' hr', Region.entry_isLive, Bool.not_not]

/-- In every run the regions that live are those of the book. -/
theorem Run.living (hrun : Run dbg f (initial m t) xs s) :
  ∃ b, s.Keeps b ∧ Regions.living xs = roster false b
  := by
  apply hrun.induct (P := fun xs _ b => Regions.living xs = roster false b) rfl
  intro xs s s' b op cs out hs ih heffect hallows hdone
  rw [heffect.roster false hs hallows hdone.keeps, ← ih]
  rfl

end Living

/-! ### Losses -/

/-- The slots of a book whose region does not live. -/
def lost (b : Book) : Nat := b.regions.countP fun r => !(r.owned && !r.dead)

/-- A sweep over the ledger finds each live region again, with room for its extents. -/
def Survives (f : Translator τ) : τ → Nat → List RegionRecord → Prop
  | _, _, [] => True
  | t, pool, r :: rs =>
      if r.dead = true then
        Survives f t pool rs
      else
        let next := f t r.pid r.gva r.len
        match next.2 with
        | .error _ => False
        | .ok extents =>
            if extents.length ≤ r.extents.length then
              Survives f next.1 pool rs
            else
              pool + extents.length ≤ extentCapacity ∧ Survives f next.1 (pool + extents.length) rs

instance decidableSurvives (f : Translator τ) :
    ∀ (t : τ) (pool : Nat) (rs : List RegionRecord), Decidable (Survives f t pool rs)
  | _, _, [] => isTrue trivial
  | t, pool, r :: rs =>
      have : ∀ t pool, Decidable (Survives f t pool rs) := fun t pool => decidableSurvives f t pool rs
      if hdead : r.dead = true then
        decidable_of_iff (Survives f t pool rs) (by rw [Survives, if_pos hdead])
      else
        match hanswer : (f t r.pid r.gva r.len).2 with
        | .error _ => isFalse (by simp [Survives, hdead, hanswer])
        | .ok extents =>
            decidable_of_iff
              (if extents.length ≤ r.extents.length then
                Survives f (f t r.pid r.gva r.len).1 pool rs
              else
                pool + extents.length ≤ extentCapacity ∧
                  Survives f (f t r.pid r.gva r.len).1 (pool + extents.length) rs)
              (by simp [Survives, hdead, hanswer])

/-- An operation loses a slot: the workload takes a live region back, a registration is stranded,
or a sweep does not find a region again. -/
def Operation.Loses (f : Translator τ) (s : RegionIpc τ) : Operation → Prop
  | .request (.unregister regionId) pid workloadPid => workloadPid = some pid ∧
      ∃ record ∈ s.records, record.regionId = regionId ∧ record.dead = false
  | .request req pid workloadPid => Regions.Strands f s req pid workloadPid
  | .reverify => ¬ Survives f s.translator
      (ManifestHeader.ofMem s.manifest.mem).extentCount.toNat s.records

/-- The slots that a change loses. -/
def losses : Change → Nat
  | .publish r => if r.owned = true then 0 else 1
  | .bury _ => 1
  | .move _ _ => 0

section Losses

variable {dbg : Bool} {f : Translator τ} {m : ByteMem} {t : τ} {xs : List (Step τ)}
  {s s' : RegionIpc τ} {b : Book} {op : Operation} {cs : List Change} {out : Option Reply}
  {r : Region} {i : Nat}

theorem length_roster (b : Book) :
  (roster false b).length + Regions.lost b = b.regions.length
  := by
  have hlisted : ((b.regions.zipIdx).filter fun x => isListed false x.1).length
      = b.regions.countP (isListed false) := by
    rw [← List.countP_eq_length_filter]
    conv => rhs; rw [← List.zipIdx_map_fst 0 b.regions]
    rw [List.countP_map]
    rfl
  rw [roster, rosterFrom, List.length_map, hlisted, List.length_eq_countP_add_countP (isListed false),
    Regions.lost]
  congr 2
  funext r
  simp [isListed]

theorem countP_set (p : Region → Bool) {rs : List Region} (hr : rs[i]? = some r) (r' : Region) :
  (rs.set i r').countP p + (if p r then 1 else 0) = rs.countP p + (if p r' then 1 else 0)
  := by
  induction rs generalizing i with
  | nil => cases hr
  | cons r₁ rs ih =>
      cases i with
      | zero =>
          obtain rfl := Option.some.inj hr
          rw [List.set_cons_zero, List.countP_cons, List.countP_cons]
          omega
      | succ i =>
          have hrest := ih hr
          rw [List.set_cons_succ, List.countP_cons, List.countP_cons]
          omega

theorem lost_apply {c : Change} (hc : b.Allows c) :
  lost (b.apply c) = lost b + losses c
  := by
  cases hc with
  | @publish r hcount hpool hoff hdead =>
      change (b.regions ++ [r]).countP _ = _
      rw [List.countP_append, List.countP_singleton, hdead, losses, lost]
      cases r.owned <;> rfl
  | @bury i r hr hdead howned =>
      have hset := countP_set (fun r => !(r.owned && !r.dead)) hr r.bury
      rw [Book.apply, lost, Book.bury_regions hr, losses, lost]
      simp only [Region.bury, howned, hdead] at hset ⊢
      simpa using hset
  | @move i r extents hr hdead howned hfit =>
      have hset := countP_set (fun r => !(r.owned && !r.dead)) hr
        (r.move (b.place r extents) extents)
      rw [Book.apply, lost, Book.move_eq hr, losses, lost]
      simp only [Region.move, howned, hdead] at hset ⊢
      simpa using hset

theorem lost_applyAll (hallows : b.AllowsAll cs) :
  lost (b.applyAll cs) = lost b + (cs.map losses).sum
  := by
  induction hallows with
  | nil b => rfl
  | @cons b c cs hc _ ih =>
      change lost ((b.apply c).applyAll cs) = _
      rw [ih, lost_apply hc, List.map_cons, List.sum_cons, Nat.add_assoc]

/-- A sweep loses nothing exactly when all regions survive it. -/
theorem sweep_losses {ps rs : List Region} (f : Translator τ) (t : τ)
    (hregions : b.regions = ps ++ rs) :
  ((Book.sweep f t b ps.length rs).2.map losses).sum = 0
    ↔ Survives f t b.pool (Book.ledgerFrom ps.length rs)
  := by
  induction rs generalizing t b ps with
  | nil => simp [Book.sweep, Book.ledgerFrom, Survives]
  | cons r rs ih =>
      have hr : b.regions[ps.length]? = some r := by
        rw [hregions, List.getElem?_append_right (Nat.le_refl _), Nat.sub_self]
        rfl
      have hnext : ∀ (b' : Book) (r' : Region) (t' : τ), b'.regions = b.regions.set ps.length r' →
          (((Book.sweep f t' b' (ps.length + 1) rs).2.map losses).sum = 0
            ↔ Survives f t' b'.pool (Book.ledgerFrom (ps.length + 1) rs)) := by
        intro b' r' t' hset
        have hsplit : b'.regions = (ps ++ [r']) ++ rs := by
          rw [hset, hregions, List.set_append_right _ _ (Nat.le_refl _), Nat.sub_self,
            List.set_cons_zero, List.append_assoc]
          rfl
        have hrest := ih (t := t') hsplit
        rw [List.length_append, List.length_singleton] at hrest
        exact hrest
      have hsame : b.regions = b.regions.set ps.length r := by
        obtain ⟨hi, hget⟩ := List.getElem?_eq_some_iff.mp hr
        rw [← hget, List.set_getElem_self]
      rw [Book.sweep, Book.ledgerFrom]
      by_cases hlive : r.owned = true ∧ r.dead = false
      · rw [if_pos hlive, if_pos hlive.1, Survives, Region.record_dead, hlive.2,
          if_neg Bool.false_ne_true]
        dsimp only
        change _ ↔ match (f t r.pid r.gva r.len).2 with
          | .error _ => False
          | .ok extents =>
              if extents.length ≤ r.extents.length then
                Survives f (f t r.pid r.gva r.len).1 b.pool (Book.ledgerFrom (ps.length + 1) rs)
              else
                b.pool + extents.length ≤ extentCapacity ∧
                  Survives f (f t r.pid r.gva r.len).1 (b.pool + extents.length)
                    (Book.ledgerFrom (ps.length + 1) rs)
        rw [List.map_append, List.sum_append, Nat.add_eq_zero_iff]
        cases (f t r.pid r.gva r.len).2 with
        | error e => simp [Book.verdict, losses]
        | ok extents =>
            rw [Book.verdict]
            dsimp only
            by_cases hecho : extents = r.extents
            · rw [if_pos hecho, if_pos (Nat.le_of_eq (congrArg List.length hecho))]
              have hrest := hnext b r (f t r.pid r.gva r.len).1 hsame
              simpa [Book.applyAll] using hrest
            · rw [if_neg hecho]
              have hmoved := hnext (b.move ps.length extents)
                (r.move (b.place r extents) extents) (f t r.pid r.gva r.len).1 (by
                  rw [Book.move_eq hr])
              have hpool : (b.move ps.length extents).pool = b.poolWith r extents := by
                rw [Book.move_eq hr]
              rw [hpool, Book.poolWith] at hmoved
              by_cases hle : extents.length ≤ r.extents.length
              · rw [if_pos (show b.Fits r extents from .inl hle), if_pos hle]
                rw [if_pos hle] at hmoved
                simpa [Book.applyAll, Book.apply, losses] using hmoved
              · rw [if_neg hle]
                rw [if_neg hle] at hmoved
                by_cases hroom : b.pool + extents.length ≤ extentCapacity
                · rw [if_pos (show b.Fits r extents from .inr hroom)]
                  simpa [Book.applyAll, Book.apply, losses, hroom] using hmoved
                · rw [if_neg (show ¬ b.Fits r extents from fun h => h.elim hle hroom)]
                  simp [losses, hroom]
      · have hrest := hnext b r t hsame
        rw [if_neg hlive]
        by_cases howned : r.owned = true
        · have hdead : r.dead = true := by
            rw [← Bool.not_eq_false]
            exact fun h => hlive ⟨howned, h⟩
          rw [if_pos howned, Survives, Region.record_dead, hdead, if_pos rfl]
          exact hrest
        · rw [if_neg howned]
          exact hrest

/-- An operation loses slots exactly when it is one that loses. -/
theorem Effect.losses_iff (h : Effect f s.translator b op cs out) (hs : s.Keeps b) :
  (cs.map losses).sum = 0 ↔ ¬ op.Loses f s
  := by
  cases h with
  | @stranger req peerPid workloadPid hpid =>
      have hnot : ¬ (Operation.request req peerPid workloadPid).Loses f s := by
        cases req with
        | register flags layoutVersion nameId gva len name => exact fun h => hpid h.1
        | unregister regionId => exact fun h => hpid h.1
      simp [hnot]
  | @refused flags layoutVersion nameId gva len name pid status hrefusal =>
      have hnot : ¬ (Operation.request (.register flags layoutVersion nameId gva len name) pid
          (some pid)).Loses f s := by
        rintro ⟨_, ⟨_, _, _, _, _, _, heq, hnone⟩, _⟩
        obtain ⟨rfl, rfl, rfl, rfl, rfl, rfl⟩ := Request.register.inj heq
        rw [regionCount_eq hs.stored, extentCount_eq hs.stored, hrefusal] at hnone
        cases hnone
      simp [hnot]
  | @registered r hanswer hname howned hallows hgen =>
      have hnot : ¬ (Operation.request (.register r.flags r.layoutVersion r.nameId r.gva r.len
          r.name) r.pid (some r.pid)).Loses f s := by
        rintro ⟨_, _, hlarge⟩
        rw [generation_eq hs.stored] at hlarge
        exact absurd hgen (Nat.not_lt.mpr hlarge)
      simp [hnot, losses, howned]
  | @stranded r hanswer hname howned hallows hgen =>
      have hloses : (Operation.request (.register r.flags r.layoutVersion r.nameId r.gva r.len
          r.name) r.pid (some r.pid)).Loses f s := by
        cases hallows with
        | publish hcount hpool hoff hdead =>
            refine ⟨rfl, ⟨_, _, _, _, _, _, rfl, ?_⟩, ?_⟩
            · rw [regionCount_eq hs.stored, extentCount_eq hs.stored, hanswer, RegionIpc.refusal,
                if_neg (Nat.not_le.mpr hcount), if_neg (Nat.not_lt.mpr hpool)]
            · rw [generation_eq hs.stored]
              exact hgen
      simp [hloses, losses, howned]
  | @unknown regionId pid hnone =>
      have hnot : ¬ (Operation.request (.unregister regionId) pid (some pid)).Loses f s := by
        rintro ⟨_, record, hmem, hid, hlive⟩
        rw [hs.records] at hmem
        rw [hnone record hmem hid] at hlive
        cases hlive
      simp [hnot]
  | @unregistered i r pid hr howned hdead =>
      have hloses :
          (Operation.request (.unregister (UInt32.ofNat i)) pid (some pid)).Loses f s := by
        refine ⟨rfl, r.record i, ?_, rfl, hdead⟩
        rw [hs.records]
        exact Book.mem_ledger.mpr ⟨i, r, hr, howned, rfl⟩
      simp [hloses, losses]
  | swept =>
      have hsweep := sweep_losses f s.translator (List.nil_append b.regions).symm
      rw [List.length_nil] at hsweep
      rw [hsweep, Operation.Loses, not_not, extentCount_eq hs.stored, hs.records]
      rfl

/-- In every run the book has the regions that live, and no slot is lost exactly when no operation
loses one. -/
theorem Run.lost (hrun : Run dbg f (initial m t) xs s) :
  ∃ b, s.Keeps b ∧ Regions.living xs = roster false b ∧
    (Regions.lost b = 0 ↔ ∀ x ∈ xs, ¬ x.op.Loses f x.before)
  := by
  apply hrun.induct (P := fun xs _ b => Regions.living xs = roster false b ∧
    (Regions.lost b = 0 ↔ ∀ x ∈ xs, ¬ x.op.Loses f x.before))
  · exact ⟨rfl, by simp [Regions.lost, Book.vacant]⟩
  · rintro xs s s' b op cs out hs ⟨hliving, hlost⟩ heffect hallows hdone
    constructor
    · rw [heffect.roster false hs hallows hdone.keeps, ← hliving]
      rfl
    · rw [lost_applyAll hallows, Nat.add_eq_zero_iff, hlost, heffect.losses_iff hs,
        List.forall_mem_cons, and_comm]

end Losses

/-! ### The region count -/

/-- A registration takes the next slot: it leaves the entries below the region count, and the id of
its region is the count. -/
def Step.Appends (x : Step τ) : Prop :=
  let count := (ManifestHeader.ofMem x.before.manifest.mem).regionCount
  (∀ flags layoutVersion nameId gva len name pid workloadPid,
      x.op = .request (.register flags layoutVersion nameId gva len name) pid workloadPid →
        ∀ i < count.toNat,
          RegionEntry.ofMem x.after.manifest.mem i = RegionEntry.ofMem x.before.manifest.mem i) ∧
    ∀ reg, x.registered = some reg → reg.regionId = count

/-- The region count of the manifest, and the one that `Ready` tells, are a number. -/
def Counts (s : RegionIpc τ) (n : Nat) : Prop :=
  (ManifestHeader.ofMem s.manifest.mem).regionCount.toNat = n ∧
    ∃ ready, readyManifest s.manifest = .ok ready ∧ ready.regionCount.toNat = n

section Count

variable {dbg : Bool} {f : Translator τ} {m : ByteMem} {t : τ} {xs : List (Step τ)}
  {s s' : RegionIpc τ} {b : Book} {op : Operation} {cs : List Change} {out : Option Reply}

/-- The counts are the number of slots. -/
theorem counts_iff (hs : s.Keeps b) (n : Nat) :
  Counts s n ↔ b.regions.length = n
  := by
  have hready := hs.stored.headed.readyManifest
  have hcount := hs.stored.headed.toNat_count
  rw [Counts, regionCount_eq hs.stored]
  constructor
  · exact fun h => h.1
  · intro h
    refine ⟨h, _, hready, ?_⟩
    rw [← h]
    exact hcount

theorem Effect.length_le_length (h : Effect f s.translator b op cs out)
    (hallows : b.AllowsAll cs) :
  b.regions.length ≤ (b.applyAll cs).regions.length
  := by
  have hquiet : (∀ r, .publish r ∉ cs) →
      b.regions.length ≤ (b.applyAll cs).regions.length := fun hnone =>
    Nat.le_of_eq (forall₂_applyAll hallows hnone).length_eq
  cases h with
  | registered _ _ _ _ _ => exact Nat.le_of_lt (by simp [Book.applyAll, Book.apply, Book.publish])
  | stranded _ _ _ _ _ => exact Nat.le_of_lt (by simp [Book.applyAll, Book.apply, Book.publish])
  | swept => exact hquiet (publish_not_mem_sweep f s.translator b 0 b.regions)
  | stranger _ => exact Nat.le_refl _
  | refused _ => exact Nat.le_refl _
  | unknown _ => exact Nat.le_refl _
  | unregistered _ _ _ => exact hquiet (by simp)

/-- Only a request that succeeds registers, and it takes the next slot. -/
theorem Effect.registered_id (h : Effect f s.translator b op cs out) {reg : Registration}
    (hreg : (Step.mk s op out s').registered = some reg) :
  reg.regionId = UInt32.ofNat b.regions.length ∧
    (b.applyAll cs).regions.length = b.regions.length + 1
  := by
  have hfailed : ∀ {req : Request} {pid : Int32} {workloadPid : Option Int32} {status : Status},
      status.toU16 ≠ Status.ok.toU16 → (Step.mk s (.request req pid workloadPid)
        (some (errReply status)) s').registered ≠ some reg := by
    intro req pid workloadPid status hstatus heq
    rw [(failed_request rfl rfl hstatus).1] at heq
    cases heq
  cases h with
  | stranger _ => exact absurd hreg (hfailed (by decide))
  | refused hrefusal => exact absurd hreg (hfailed (refusal_ne_ok hrefusal))
  | unknown _ => cases hreg
  | unregistered _ _ _ => cases hreg
  | swept => cases hreg
  | stranded _ _ _ _ _ => exact absurd hreg (hfailed (by decide))
  | registered _ _ _ _ _ =>
      refine ⟨?_, by simp [Book.applyAll, Book.apply, Book.publish]⟩
      rw [← Option.some.inj hreg]

/-- Each step of the server takes the next slot for what it registers. -/
theorem Effect.appends (h : Effect f s.translator b op cs out) (hs : s.Keeps b)
    (hs' : s'.Keeps (b.applyAll cs)) (hmanifest : s'.manifest = s.manifest.writeAll (b.log cs)) :
  (Step.mk s op out s').Appends
  := by
  have hcount := regionCount_eq hs.stored
  constructor
  · intro flags layoutVersion nameId gva len name pid workloadPid hop i hi
    dsimp only at hop hi
    have hpublish : ∀ r, cs = [.publish r] → RegionEntry.ofMem s'.manifest.mem i
        = RegionEntry.ofMem s.manifest.mem i := by
      rintro r rfl
      rw [hcount] at hi
      have hold := List.getElem?_eq_getElem hi
      have hnew : (b.publish r).regions[i]? = some b.regions[i] := by
        rw [Book.publish, List.getElem?_append_left hi]
        exact hold
      exact (hs'.stored.listed.entry i _ hnew).trans (hs.stored.listed.entry i _ hold).symm
    have hnothing : cs = [] → RegionEntry.ofMem s'.manifest.mem i
        = RegionEntry.ofMem s.manifest.mem i := by
      rintro rfl
      rw [hmanifest]
      rfl
    cases h with
    | stranger _ => exact hnothing rfl
    | refused _ => exact hnothing rfl
    | unknown _ => exact hnothing rfl
    | unregistered _ _ _ => cases hop
    | swept => cases hop
    | registered _ _ _ _ _ => exact hpublish _ rfl
    | stranded _ _ _ _ _ => exact hpublish _ rfl
  · intro reg hreg
    rw [(h.registered_id hreg).1]
    apply UInt32.toNat_inj.mp
    dsimp only
    rw [hcount]
    exact hs.stored.headed.toNat_count

/-- In every run the ids of registered regions are below the number of slots, and none is used
twice. -/
theorem Run.fresh (hrun : Run dbg f (initial m t) xs s) :
  ((registrations xs).map Registration.regionId).Nodup ∧ ∀ x ∈ xs, x.Appends
  := by
  obtain ⟨b, _, hP⟩ := hrun.induct (P := fun xs _ b =>
    (∀ reg ∈ registrations xs, reg.regionId.toNat < b.regions.length) ∧
      ((registrations xs).map Registration.regionId).Nodup ∧ ∀ x ∈ xs, x.Appends)
    ⟨fun _ hreg => (nomatch hreg), List.nodup_nil, fun _ hx => (nomatch hx)⟩ (by
      rintro xs s s' b op cs out hs ⟨hbelow, hnodup, happends⟩ heffect hallows hdone
      have hgrow := heffect.length_le_length hallows
      have happend := heffect.appends hs hdone.keeps hdone.manifest
      have hall := List.forall_mem_cons.mpr ⟨happend, happends⟩
      have hold : ∀ reg ∈ registrations xs, reg.regionId.toNat < (b.applyAll cs).regions.length :=
        fun reg hreg => Nat.lt_of_lt_of_le (hbelow reg hreg) hgrow
      cases hreg : (Step.mk s op out s').registered with
      | none =>
          have hsame : registrations (⟨s, op, out, s'⟩ :: xs) = registrations xs := by
            rw [registrations, List.filterMap_cons, hreg]
            rfl
          rw [hsame]
          exact ⟨hold, hnodup, hall⟩
      | some reg =>
          obtain ⟨hid, hlength⟩ := heffect.registered_id hreg
          have hmore : registrations (⟨s, op, out, s'⟩ :: xs) = reg :: registrations xs := by
            rw [registrations, List.filterMap_cons, hreg]
            rfl
          have hnat : reg.regionId.toNat = b.regions.length := by
            rw [hid]
            exact hs.stored.headed.toNat_count
          rw [hmore, List.map_cons, List.nodup_cons]
          refine ⟨?_, ⟨?_, hnodup⟩, hall⟩
          · intro reg' hreg'
            rcases List.mem_cons.mp hreg' with rfl | hrest
            · omega
            · exact hold reg' hrest
          · intro hmem
            obtain ⟨reg', hreg', heq⟩ := List.mem_map.mp hmem
            have hlt := hbelow reg' hreg'
            rw [heq] at hlt
            omega)
  exact hP.2

/-- The counts are the number of the regions that live exactly when no slot was lost. -/
theorem Run.counts_iff (hrun : Run dbg f (initial m t) xs s) :
  Counts s (Regions.living xs).length ↔ ∀ x ∈ xs, ¬ x.op.Loses f x.before
  := by
  obtain ⟨b, hs, hliving, hlost⟩ := hrun.lost
  have hlength := length_roster b
  rw [Regions.counts_iff hs, hliving, ← hlost]
  omega

/-- In every run the region count of the manifest and of `Ready` is the number of the regions that
live exactly when no operation has lost a slot; registrations take new slots all the same. -/
theorem region_count_iff (dbg : Bool) (f : Translator τ) (m : ByteMem) (t : τ)
    (xs : List (Step τ)) (s : RegionIpc τ) (hrun : Run dbg f (initial m t) xs s) :
  (Counts s (living xs).length ↔ ∀ x ∈ xs, ¬ x.op.Loses f x.before) ∧
    ((registrations xs).map Registration.regionId).Nodup ∧ ∀ x ∈ xs, x.Appends
  := ⟨hrun.counts_iff, hrun.fresh⟩

/-- Behind two registrations and a sweep that finds both regions again, the counts are two. -/
theorem region_count_iff_swept :
  Counts sweptRegions 2 ∧ (registrations sweptSteps).map Registration.regionId = [1, 0]
  := by
  have hcounts := (region_count_iff true wanderingTranslator (fun _ => 0) 0 sweptSteps sweptRegions
    run_sweptSteps).1
  have hliving : (living sweptSteps).length = 2 := by decide +kernel
  rw [hliving] at hcounts
  have hregister : ∀ (s : RegionIpc UInt64) (flags layoutVersion nameId : UInt32)
      (gva len : UInt64) (name : Bytes), Early s →
      ¬ (Operation.request (.register flags layoutVersion nameId gva len name) 7 (some 7)).Loses
        wanderingTranslator s :=
    fun s flags layoutVersion nameId gva len name hearly => hearly.not_strands
      (.request (.register flags layoutVersion nameId gva len name) 7 (some 7))
  refine ⟨hcounts.mpr ?_, by decide +kernel⟩
  intro x hx
  simp only [sweptSteps, List.mem_cons, List.not_mem_nil, or_false] at hx
  rcases hx with rfl | rfl | rfl
  · have hsurvives : Survives wanderingTranslator twoRegions.translator
        (ManifestHeader.ofMem twoRegions.manifest.mem).extentCount.toNat twoRegions.records := by
      decide +kernel
    exact not_not.mpr hsurvives
  · apply hregister
    rw [Early]
    decide +kernel
  · apply hregister
    rw [Early]
    decide +kernel

/-- The sample request registers its region. -/
theorem perform_sample :
  ∃ s : RegionIpc Unit, (perform true identityTranslator (.request sampleRequest 7 (some 7))).run
        (initial (fun _ => 0) ()) = (s, .ok (some ⟨Status.ok.toU16, 0, 1, 2⟩)) ∧
      s.records = [sampleRegion.record 0] ∧
        (ManifestHeader.ofMem s.manifest.mem).generation = 2
  := by
  have hs := keeps_initial (fun _ => 0) ()
  rcases RegionIpc.run_handle_published (f := identityTranslator) (t := ()) (r := sampleRegion)
    true hs.stored.headed rfl (by decide) (by decide) rfl rfl with hdone | hover
  · rw [if_pos (by decide)] at hdone
    have hrun : (RegionIpc.handle true identityTranslator sampleRequest 7 (some 7)).run
        (initial (fun _ => 0) ()) = _ := hdone
    have hperform : (perform true identityTranslator (.request sampleRequest 7 (some 7))).run
        (initial (fun _ => 0) ()) = ((initial (fun _ => 0) ()).registered () 0 0 0 sampleRegion,
          .ok (some ⟨Status.ok.toU16, 0, 1, 2⟩)) := by
      rw [perform, Exec.run_bind_of_ok hrun]
      rfl
    refine ⟨_, hperform, rfl, ?_⟩
    change (ManifestHeader.ofMem (Slice.writeAll _ (sealedWrites 0
      (publishWrites 0 0 0 sampleRegion))).mem).generation = 2
    rw [writeAll_publishWrites_mem, ManifestHeader.ofMem_write_generation]
    rfl
  · exact absurd hover.2.2 (by decide)

/-- A region that is registered and taken back is counted on. -/
theorem counted_dead :
  ¬ ∀ (dbg : Bool) (f : Translator Unit) (m : ByteMem) (xs : List (Step Unit)) (s : RegionIpc Unit),
    Run dbg f (initial m ()) xs s → Counts s (living xs).length
  := by
  intro hall
  obtain ⟨s, hrun, hrecords, hgen⟩ := perform_sample
  have hsample : (Operation.request sampleRequest 7 (some 7)).Possible := ⟨sampleDatagram, rfl⟩
  have hone := Run.step .nil hsample hrun
  obtain ⟨b, hs, _⟩ := hone.lost
  have hpossible : (Operation.request (.unregister 0) 7 (some 7)).Possible :=
    ⟨[0x44, 0x47, 0x52, 0x52, 1, 0, 2, 0, 0, 0, 0, 0], rfl⟩
  have hearly : Early s := by
    rw [Early, hgen]
    decide
  obtain ⟨out', s', hserves⟩ := serves_of_keeps true identityTranslator hs hearly hpossible
  have htwo := hone.step hpossible hserves.run
  have hkept := htwo.counts_iff.mp (hall _ _ _ _ _ htwo) _ List.mem_cons_self
  apply hkept
  refine ⟨rfl, sampleRegion.record 0, ?_, rfl, rfl⟩
  rw [hrecords]
  exact List.mem_cons_self

end Count

end Protocol.Regions
