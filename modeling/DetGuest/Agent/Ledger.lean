import DetGuest.Agent.Book

/-!
# The ledger and the book

The server changes the manifest in three ways, and its ledger follows.  A request is refused,
publishes a region or buries one; a sweep reacts to each answer of the translator.  What an
operation does is told as a list of changes of the book, with the writes they make.
-/

namespace Agent

open Wire Wire.Regionipc

/-! ### Changes -/

/-- A change of a book. -/
inductive Change where
  | publish (r : Region)
  | bury (i : Nat)
  | move (i : Nat) (extents : List Extent)

namespace Book

/-- The book behind a change. -/
def apply (b : Book) : Change → Book
  | .publish r => b.publish r
  | .bury i => b.bury i
  | .move i extents => b.move i extents

/-- The writes of a change between those of the generation. -/
def writes (b : Book) : Change → List (Nat × Bytes)
  | .publish r => publishWrites b.generation b.regions.length b.pool r
  | .bury i =>
      match b.regions[i]? with
      | none => []
      | some r => Slice.fieldsAt (RegionEntry.offset i) (r.bury.entry i).fields
  | .move i extents =>
      match b.regions[i]? with
      | none => []
      | some r => b.moveWrites i r extents

/-- Whether there is room for other extents of a region. -/
def Fits (b : Book) (r : Region) (extents : List Extent) : Prop :=
  extents.length ≤ r.extents.length ∨ b.pool + extents.length ≤ extentCapacity

instance (b : Book) (r : Region) (extents : List Extent) : Decidable (b.Fits r extents) :=
  inferInstanceAs (Decidable (_ ∨ _))

/-- The changes that the server makes: it publishes what there is room for, and changes the live
regions that it owns. -/
inductive Allows (b : Book) : Change → Prop
  | publish {r : Region} (hcount : b.regions.length < regionCapacity)
      (hpool : b.pool + r.extents.length ≤ extentCapacity) (hoff : r.extentOff = b.pool)
      (hdead : r.dead = false) : Allows b (.publish r)
  | bury {i : Nat} {r : Region} (hr : b.regions[i]? = some r) (hdead : r.dead = false)
      (howned : r.owned = true) : Allows b (.bury i)
  | move {i : Nat} {r : Region} {extents : List Extent} (hr : b.regions[i]? = some r)
      (hdead : r.dead = false) (howned : r.owned = true) (hfit : b.Fits r extents) :
      Allows b (.move i extents)

/-- The book behind a sequence of changes. -/
def applyAll (b : Book) (cs : List Change) : Book := cs.foldl apply b

/-- The writes of a sequence of changes. -/
def log : Book → List Change → List (Nat × Bytes)
  | _, [] => []
  | b, c :: cs => sealedWrites b.generation (b.writes c) ++ log (b.apply c) cs

/-- The changes are allowed one after the other. -/
inductive AllowsAll : Book → List Change → Prop
  | nil (b : Book) : AllowsAll b []
  | cons {b : Book} {c : Change} {cs : List Change} (hc : b.Allows c)
      (hcs : AllowsAll (b.apply c) cs) : AllowsAll b (c :: cs)

/-- A manifest area holds a book. -/
structure Stored (b : Book) (m : Slice) : Prop where
  len : m.len = manifestTotalSize
  listed : b.ListedIn m.mem
  sound : b.Sound

variable {b : Book} {m : Slice} {c : Change} {cs cs' : List Change} {r : Region} {i : Nat}

theorem Stored.headed (h : b.Stored m) :
  Headed m b.generation b.regions.length b.pool
  := h.listed.headed h.sound h.len

theorem generation_apply (h : b.Allows c) :
  (b.apply c).generation = b.generation + 2
  := by
  cases h with
  | publish _ _ _ _ => rfl
  | bury _ _ _ => rfl
  | move hr _ _ _ => rw [apply, move_eq hr]

/-- A change that is allowed keeps the area in order. -/
theorem Stored.apply (h : b.Stored m) (hc : b.Allows c) :
  (b.apply c).Stored (m.writeAll (sealedWrites b.generation (b.writes c)))
  := by
  have hlen : (m.writeAll (sealedWrites b.generation (b.writes c))).len = manifestTotalSize := by
    rw [Slice.writeAll_len]
    exact h.len
  refine ⟨hlen, ?_, ?_⟩
  · cases hc with
    | publish hcount hpool hoff hdead => exact h.listed.publish h.sound hcount hoff
    | bury hr hdead howned =>
        rw [writes, hr]
        exact h.listed.bury h.sound hr
    | move hr hdead howned hfit =>
        rw [writes, hr]
        exact h.listed.move h.sound h.len hr
  · cases hc with
    | publish hcount hpool hoff hdead => exact h.sound.publish hcount hpool hoff
    | bury hr hdead howned => exact h.sound.bury hr
    | move hr hdead howned hfit => exact h.sound.move hr hfit

/-- Changes that are allowed keep the area in order. -/
theorem Stored.applyAll (h : b.Stored m) (hcs : b.AllowsAll cs) :
  (b.applyAll cs).Stored (m.writeAll (b.log cs))
  := by
  induction hcs generalizing m with
  | nil b => exact h
  | cons hc _ ih =>
      rw [log, Slice.writeAll_append]
      exact ih (h.apply hc)

theorem AllowsAll.append (h : b.AllowsAll cs) (h' : (b.applyAll cs).AllowsAll cs') :
  b.AllowsAll (cs ++ cs')
  := by
  induction h with
  | nil b => exact h'
  | cons hc _ ih => exact .cons hc (ih h')

theorem applyAll_append :
  b.applyAll (cs ++ cs') = (b.applyAll cs).applyAll cs'
  := List.foldl_append ..

theorem log_append :
  b.log (cs ++ cs') = b.log cs ++ (b.applyAll cs).log cs'
  := by
  induction cs generalizing b with
  | nil => rfl
  | cons c cs ih =>
      rw [List.cons_append, log, ih, log, List.append_assoc]
      rfl

/-- Each change raises the generation by two. -/
theorem generation_applyAll (h : b.AllowsAll cs) :
  (b.applyAll cs).generation = b.generation + UInt64.ofNat (2 * cs.length)
  := by
  induction h with
  | nil b => simp [applyAll]
  | @cons b c cs hc _ ih =>
      have htwo : UInt64.ofNat (2 * (c :: cs).length) = 2 + UInt64.ofNat (2 * cs.length) := by
        rw [List.length_cons, Nat.mul_succ, Nat.add_comm, UInt64.ofNat_add]
        rfl
      rw [applyAll, List.foldl_cons]
      change ((b.apply c).applyAll cs).generation = _
      rw [ih, generation_apply hc, htwo, UInt64.add_assoc]

/-! ### The ledger of a book -/

theorem ledgerFrom_append (n : Nat) (rs rs' : List Region) :
  ledgerFrom n (rs ++ rs') = ledgerFrom n rs ++ ledgerFrom (n + rs.length) rs'
  := by
  induction rs generalizing n with
  | nil => rfl
  | cons r rs ih =>
      rw [List.cons_append, ledgerFrom, ih, ledgerFrom, List.length_cons, Nat.add_right_comm,
        Nat.add_assoc]
      split
      · rfl
      · rfl

theorem ledger_publish :
  (b.publish r).ledger
    = b.ledger ++ if r.owned then [r.record b.regions.length] else []
  := by
  rw [ledger, publish, ledgerFrom_append, Nat.zero_add, ledgerFrom]
  rfl

/-- The ledger has a record of each region that is owned. -/
theorem mem_ledgerFrom {record : RegionRecord} {n : Nat} {rs : List Region} :
  record ∈ ledgerFrom n rs ↔
    ∃ (k : Nat) (r : Region), rs[k]? = some r ∧ r.owned = true ∧ record = r.record (n + k)
  := by
  induction rs generalizing n with
  | nil => simp [ledgerFrom]
  | cons r rs ih =>
      have htail : record ∈ ledgerFrom (n + 1) rs ↔
          ∃ (k : Nat) (r₂ : Region), (r :: rs)[k + 1]? = some r₂ ∧ r₂.owned = true ∧
            record = r₂.record (n + (k + 1)) := by
        rw [ih]
        simp only [List.getElem?_cons_succ, Nat.add_assoc, Nat.add_comm 1]
      have hsplit : record ∈ ledgerFrom n (r :: rs) ↔
          (r.owned = true ∧ record = r.record n) ∨ record ∈ ledgerFrom (n + 1) rs := by
        rw [ledgerFrom]
        split
        · rename_i howned
          simp [howned]
        · rename_i hnot
          simp [hnot]
      rw [hsplit, htail]
      constructor
      · rintro (⟨howned, hrecord⟩ | ⟨k, r₂, hk, howned, hrecord⟩)
        · exact ⟨0, r, rfl, howned, hrecord⟩
        · exact ⟨k + 1, r₂, hk, howned, hrecord⟩
      · rintro ⟨k, r₂, hk, howned, hrecord⟩
        cases k with
        | zero =>
            obtain rfl := Option.some.inj hk
            exact Or.inl ⟨howned, hrecord⟩
        | succ k => exact Or.inr ⟨k, r₂, hk, howned, hrecord⟩

theorem mem_ledger {record : RegionRecord} :
  record ∈ b.ledger ↔
    ∃ (k : Nat) (r : Region), b.regions[k]? = some r ∧ r.owned = true ∧ record = r.record k
  := by
  rw [ledger, mem_ledgerFrom]
  simp only [Nat.zero_add]

/-- The record of a region that is buried is killed. -/
theorem killRecord_ledgerFrom {n k : Nat} {rs : List Region} (hcap : n + rs.length < 2 ^ 32)
    (hr : rs[k]? = some r) (howned : r.owned = true) (hdead : r.dead = false) :
  RegionIpc.killRecord (UInt32.ofNat (n + k)) (ledgerFrom n rs)
    = ledgerFrom n (rs.modify k Region.bury)
  := by
  induction rs generalizing n k with
  | nil => cases hr
  | cons r₁ rs ih =>
      rw [List.length_cons] at hcap
      cases k with
      | zero =>
          obtain rfl := Option.some.inj hr
          rw [ledgerFrom, if_pos howned, RegionIpc.killRecord, if_pos ⟨rfl, hdead⟩,
            List.modify_zero_cons, ledgerFrom, if_pos (show r₁.bury.owned = true from howned)]
          rfl
      | succ k =>
          obtain ⟨hk, _⟩ := List.getElem?_eq_some_iff.mp hr
          rw [List.length_cons] at hk
          have hrest := ih (n := n + 1) (by omega) (by simpa using hr)
          have hne : UInt32.ofNat n ≠ UInt32.ofNat (n + (k + 1)) := by
            intro heq
            have hnat := congrArg UInt32.toNat heq
            rw [Word.toNat_ofNat_le (Nat.le_add_right ..) hcap,
              Word.toNat_ofNat_le (Nat.add_le_add_left (Nat.le_of_lt hk) n) hcap] at hnat
            omega
          rw [Nat.add_assoc, Nat.add_comm 1] at hrest
          rw [List.modify_succ_cons, ledgerFrom, ledgerFrom]
          split
          · rw [RegionIpc.killRecord, if_neg (fun h => hne h.1), hrest]
          · exact hrest

theorem killRecord_ledger (hb : b.Sound) (hr : b.regions[i]? = some r)
    (howned : r.owned = true) (hdead : r.dead = false) :
  RegionIpc.killRecord (UInt32.ofNat i) b.ledger = (b.bury i).ledger
  := by
  have hcount := hb.count
  have hkill := killRecord_ledgerFrom (n := 0) (by
    simp only [regionCapacity] at hcount
    omega) hr howned hdead
  rw [Nat.zero_add] at hkill
  exact hkill

/-! ### Reactions of a sweep -/

/-- What a sweep does about the region of a slot on an answer of the translator. -/
def verdict (b : Book) (i : Nat) (r : Region) :
    Except BuildExtentsError (List Extent) → List Change
  | .error _ => [.bury i]
  | .ok extents =>
      if extents = r.extents then []
      else if b.Fits r extents then [.move i extents]
      else [.bury i]

/-- The region of a slot behind an answer of the translator. -/
def settled (b : Book) (r : Region) : Except BuildExtentsError (List Extent) → Region
  | .error _ => r.bury
  | .ok extents =>
      if extents = r.extents then r
      else if b.Fits r extents then r.move (b.place r extents) extents
      else r.bury

/-- The state of the translator behind a sweep over the regions from slot `i` on, and what the
sweep does. -/
def sweep {τ : Type} (f : Translator τ) : τ → Book → Nat → List Region → τ × List Change
  | t, _, _, [] => (t, [])
  | t, b, i, r :: rs =>
      if r.owned = true ∧ r.dead = false then
        let answer := f t r.pid r.gva r.len
        let cs := b.verdict i r answer.2
        let rest := sweep f answer.1 (b.applyAll cs) (i + 1) rs
        (rest.1, cs ++ rest.2)
      else
        sweep f t b (i + 1) rs

/-- A sweep makes at most one change about a region that it owns, and it is allowed. -/
theorem verdict_allowed (hr : b.regions[i]? = some r) (howned : r.owned = true)
    (hdead : r.dead = false) (answer : Except BuildExtentsError (List Extent)) :
  b.AllowsAll (b.verdict i r answer) ∧ (b.verdict i r answer).length ≤ 1
  := by
  have hbury : b.AllowsAll [.bury i] := .cons (.bury hr hdead howned) (.nil _)
  cases answer with
  | error e => exact ⟨hbury, Nat.le_refl _⟩
  | ok extents =>
      rw [verdict]
      split
      · exact ⟨.nil b, Nat.zero_le _⟩
      · split
        · rename_i hfit
          exact ⟨.cons (.move hr hdead howned hfit) (.nil _), Nat.le_refl _⟩
        · exact ⟨hbury, Nat.le_refl _⟩

/-- A sweep changes no other region. -/
theorem verdict_regions (hr : b.regions[i]? = some r)
    (answer : Except BuildExtentsError (List Extent)) :
  (b.applyAll (b.verdict i r answer)).regions = b.regions.set i (b.settled r answer)
  := by
  cases answer with
  | error e => exact bury_regions hr
  | ok extents =>
      rw [verdict, settled]
      split
      · obtain ⟨hi, hget⟩ := List.getElem?_eq_some_iff.mp hr
        rw [← hget, List.set_getElem_self]
        rfl
      · split
        · change (b.move i extents).regions = _
          rw [move_eq hr]
        · exact bury_regions hr

theorem settled_owned (answer : Except BuildExtentsError (List Extent)) :
  (b.settled r answer).owned = r.owned
  := by
  cases answer with
  | error e => rfl
  | ok extents =>
      rw [settled]
      split
      · rfl
      · split
        · rfl
        · rfl

/-- A change or none raises the generation by two at most. -/
theorem generation_applyAll_le (h : b.AllowsAll cs) (hshort : cs.length ≤ 1) :
  (b.applyAll cs).generation.toNat ≤ b.generation.toNat + 2
  := by
  rw [generation_applyAll h, UInt64.toNat_add, UInt64.toNat_ofNat']
  have hmod := Nat.mod_le (b.generation.toNat + 2 * cs.length % 2 ^ 64) (2 ^ 64)
  have hmod' := Nat.mod_le (2 * cs.length) (2 ^ 64)
  omega

end Book

/-! ### The server and the book -/

namespace RegionIpc

variable {τ α : Type} {f : Translator τ} {dbg : Bool} {s : RegionIpc τ} {b : Book} {r : Region}
  {i : Nat} {g : UInt64} {ws : List (Nat × Bytes)} {x : Exec Slice Status α} {a : α}

/-- The manifest and the ledger of the server are those of a book. -/
structure Keeps (s : RegionIpc τ) (b : Book) : Prop where
  stored : b.Stored s.manifest
  records : s.records = b.ledger

/-- A call panics because the generation is the last one, in a build with overflow checks. -/
def Overflows {β : Type} (dbg : Bool) (x : RegionExec τ β) (s : RegionIpc τ) (g : UInt64) : Prop :=
  (x.run s).2 = .panic ∧ dbg = true ∧ g + 2 = 0

/-- The server with the manifest written. -/
def wrote (s : RegionIpc τ) (ws : List (Nat × Bytes)) : RegionIpc τ :=
  { s with manifest := s.manifest.writeAll ws }

/-- The server with the state of the translator. -/
def asked (s : RegionIpc τ) (t : τ) : RegionIpc τ := { s with translator := t }

theorem wrote_asked_wrote (ws' : List (Nat × Bytes)) (t t' : τ) :
  (((s.asked t).wrote ws).asked t').wrote ws' = (s.asked t').wrote (ws ++ ws')
  := by
  simp only [wrote, asked, Slice.writeAll_append]

theorem run_onManifest_of_seals (h : Seals dbg s.manifest g ws x a) :
  (onManifest x).run s = (s.wrote (sealedWrites g ws), .ok (.ok a)) ∨
    Overflows dbg (onManifest x) s g
  := by
  by_cases hover : dbg = true ∧ g + 2 = 0
  · right
    have hpanic := h.2 hover.1 hover.2
    refine ⟨?_, hover⟩
    rcases hx : x.run s.manifest with ⟨t, v⟩
    rw [hx] at hpanic
    obtain rfl : v = .panic := hpanic
    simp only [onManifest, hx]
  · left
    have hrun := h.1 (fun hdbg hzero => hover ⟨hdbg, hzero⟩)
    simp only [onManifest, hrun, wrote]

theorem run_onManifest_of_err {e : Status} (h : x.run s.manifest = (s.manifest, .err e)) :
  (onManifest x).run s = (s, .ok (.error e))
  := by
  simp only [onManifest, h]

theorem run_translate (pid : Int32) (gva len : UInt64) :
  (translate f pid gva len).run s
    = (s.asked (f s.translator pid gva len).1, .ok (f s.translator pid gva len).2)
  := rfl

/-- A call that continues a call that overflows. -/
theorem Overflows.bind {β γ : Type} {y : RegionExec τ β} {k : β → RegionExec τ γ}
    (h : Overflows dbg y s g) :
  Overflows dbg (y >>= k) s g
  := ⟨Exec.panic_of_bind h.1, h.2⟩

/-- The generation behind which there is no other. -/
theorem last_generation (h : g + 2 = 0) :
  g.toNat = 2 ^ 64 - 2
  := by
  have hnat := congrArg UInt64.toNat h
  have hlt := g.toNat_lt
  rw [UInt64.toNat_add] at hnat
  simp only [UInt64.reduceToNat, UInt64.toNat_zero] at hnat
  omega

/-- A live region is buried. -/
theorem run_bury (dbg : Bool) (hs : b.Stored s.manifest) (hr : b.regions[i]? = some r)
    (hdead : r.dead = false) :
  (bury dbg (r.record i)).run s
      = (s.wrote (b.log [.bury i]), .ok (b.generation + 2)) ∨
    Overflows dbg (bury dbg (r.record i)) s b.generation
  := by
  have hslot := (hs.sound.toNat_slot hr).2
  have hseals := run_markRegionDead dbg hs.headed hslot
  rw [hs.listed.deadEntry hr hdead] at hseals
  have hlog : b.log [.bury i] = sealedWrites b.generation
      (Slice.fieldsAt (RegionEntry.offset i) (r.bury.entry i).fields) := by
    rw [Book.log, Book.writes, hr, Book.log, List.append_nil]
  rcases run_onManifest_of_seals hseals with hrun | hover
  · left
    rw [bury, Region.record_regionId, Exec.run_bind_of_ok hrun, hlog]
    rfl
  · right
    exact hover.bind

/-- What a sweep does about a live region of the ledger. -/
theorem run_reverifyRecord (dbg : Bool) (f : Translator τ) (hs : b.Stored s.manifest)
    (hr : b.regions[i]? = some r) (hdead : r.dead = false) :
  let answer := f s.translator r.pid r.gva r.len
  let cs := b.verdict i r answer.2
  (∃ (event : RegionEvent) (alarm : Option Bytes),
    (reverifyRecord dbg f (r.record i)).run s
      = ((s.asked answer.1).wrote (b.log cs),
          .ok ((b.settled r answer.2).record i, event, alarm))) ∨
    Overflows dbg (reverifyRecord dbg f (r.record i)) s b.generation
  := by
  rcases hanswer : f s.translator r.pid r.gva r.len with ⟨t, answer⟩
  have hask : (translate f (r.record i).pid (r.record i).gva (r.record i).len).run s
      = (s.asked t, .ok answer) := by
    rw [run_translate]
    change (s.asked (f s.translator r.pid r.gva r.len).1,
      Res.ok (f s.translator r.pid r.gva r.len).2) = _
    rw [hanswer]
  have hburied := run_bury dbg (s := s.asked t) hs hr hdead
  dsimp only
  cases answer with
  | error e =>
      rcases hburied with hrun | hover
      · left
        refine ⟨regionEvent (r.record i) (b.generation + 2),
          some (alarm (r.record i) "no longer translates; marking dead"), ?_⟩
        rw [reverifyRecord, Exec.run_bind_of_ok hask]
        dsimp only
        rw [Exec.run_bind_of_ok hrun]
        rfl
      · right
        refine ⟨?_, hover.2⟩
        rw [reverifyRecord, Exec.run_bind_of_ok hask]
        exact Exec.panic_of_bind hover.1
  | ok extents =>
      by_cases hsame : extents = r.extents
      · left
        refine ⟨regionEvent (r.record i) (currentGeneration s.manifest), none, ?_⟩
        rw [reverifyRecord, Exec.run_bind_of_ok hask]
        dsimp only
        rw [if_pos (show extents = (r.record i).extents from hsame), Book.verdict, if_pos hsame,
          Book.settled, if_pos hsame, Exec.run_bind_of_ok (Exec.run_get _)]
        rfl
      · have hsame' : ¬ extents = (r.record i).extents := hsame
        let drifted := alarm (r.record i) "extents drifted under pinning"
        by_cases hfit : b.Fits r extents
        · have hseals := Book.run_rewriteExtents dbg hs.listed hs.sound hs.len hr hfit
          have hlog : b.log [.move i extents]
              = sealedWrites b.generation (b.moveWrites i r extents) := by
            rw [Book.log, Book.writes, hr, Book.log, List.append_nil]
          rcases run_onManifest_of_seals (s := s.asked t) hseals with hrun | hover
          · left
            refine ⟨regionEvent (r.record i) (b.generation + 2), some drifted, ?_⟩
            rw [reverifyRecord, Exec.run_bind_of_ok hask]
            dsimp only
            rw [if_neg hsame', Book.verdict, if_neg hsame, if_pos hfit, Book.settled, if_neg hsame,
              if_pos hfit, hlog, Region.record_regionId, Exec.run_bind_of_ok hrun]
            rfl
          · right
            refine ⟨?_, hover.2⟩
            rw [reverifyRecord, Exec.run_bind_of_ok hask]
            dsimp only
            rw [if_neg hsame']
            exact Exec.panic_of_bind hover.1
        · have hfull := run_onManifest_of_err (s := s.asked t)
            (Book.run_rewriteExtents_exhausted dbg hs.listed hs.sound hs.len hr hfit)
          rcases hburied with hrun | hover
          · left
            refine ⟨regionEvent (r.record i) (b.generation + 2), some drifted, ?_⟩
            rw [reverifyRecord, Exec.run_bind_of_ok hask]
            dsimp only
            rw [if_neg hsame', Book.verdict, if_neg hsame, if_neg hfit, Book.settled, if_neg hsame,
              if_neg hfit, Region.record_regionId, Exec.run_bind_of_ok hfull]
            dsimp only
            rw [Exec.run_bind_of_ok hrun]
            rfl
          · right
            refine ⟨?_, hover.2⟩
            rw [reverifyRecord, Exec.run_bind_of_ok hask]
            dsimp only
            rw [if_neg hsame', Region.record_regionId, Exec.run_bind_of_ok hfull]
            exact Exec.panic_of_bind hover.1

/-- A sweep over the ledger of the regions from a slot on makes its changes and returns the
ledger of the changed regions, unless the generation overflows on the way. -/
theorem run_reverifyRecords {ps rs : List Region} (dbg : Bool) (f : Translator τ)
    (hs : b.Stored s.manifest) (hregions : b.regions = ps ++ rs) :
  let swept := Book.sweep f s.translator b ps.length rs
  b.AllowsAll swept.2 ∧
    ((∃ (rs' : List Region) (events : List (RegionEvent × Option Bytes)),
      (b.applyAll swept.2).regions = ps ++ rs' ∧
        (reverifyRecords dbg f (Book.ledgerFrom ps.length rs)).run s
          = ((s.asked swept.1).wrote (b.log swept.2),
              .ok (Book.ledgerFrom ps.length rs', events))) ∨
      (((reverifyRecords dbg f (Book.ledgerFrom ps.length rs)).run s).2 = .panic ∧ dbg = true ∧
        2 ^ 64 ≤ b.generation.toNat + 2 * rs.length))
  := by
  induction rs generalizing s b ps with
  | nil => exact ⟨.nil b, Or.inl ⟨[], [], hregions, rfl⟩⟩
  | cons r rs ih =>
      have hr : b.regions[ps.length]? = some r := by
        rw [hregions, List.getElem?_append_right (Nat.le_refl _), Nat.sub_self]
        rfl
      by_cases hlive : r.owned = true ∧ r.dead = false
      · have hrecord := run_reverifyRecord dbg f hs hr hlive.2
        rcases hanswer : f s.translator r.pid r.gva r.len with ⟨t, answer⟩
        rw [hanswer] at hrecord
        dsimp only at hrecord ⊢
        obtain ⟨hallows, hshort⟩ := Book.verdict_allowed hr hlive.1 hlive.2 answer
        have hregions₁ := Book.verdict_regions hr answer
        have howned₁ := (Book.settled_owned (b := b) (r := r) answer).trans hlive.1
        obtain ⟨r₁, hr₁⟩ : ∃ r₁, b.settled r answer = r₁ := ⟨_, rfl⟩
        obtain ⟨cs, hcs⟩ : ∃ cs, b.verdict ps.length r answer = cs := ⟨_, rfl⟩
        rw [Book.sweep, if_pos hlive, hanswer]
        dsimp only
        rw [hcs] at hrecord hallows hshort hregions₁ ⊢
        rw [hr₁] at hrecord hregions₁ howned₁
        have hs₁ : (b.applyAll cs).Stored ((s.asked t).wrote (b.log cs)).manifest :=
          hs.applyAll hallows
        have hsplit : (b.applyAll cs).regions = (ps ++ [r₁]) ++ rs := by
          rw [hregions₁, hregions, List.set_append_right _ _ (Nat.le_refl _), Nat.sub_self,
            List.set_cons_zero, List.append_assoc]
          rfl
        have hgen := Book.generation_applyAll_le hallows hshort
        obtain ⟨hallows', hrest⟩ := ih hs₁ hsplit
        rw [List.length_append, List.length_singleton] at hallows' hrest
        refine ⟨hallows.append hallows', ?_⟩
        rcases hrecord with ⟨event, alarm, hrun⟩ | hover
        · rcases hrest with ⟨rs', events, hregions', hrun'⟩ | ⟨hpanic, hdbg, hbound⟩
          · left
            refine ⟨r₁ :: rs', (event, alarm) :: events, ?_, ?_⟩
            · rw [Book.applyAll_append]
              rw [List.append_assoc] at hregions'
              exact hregions'
            · rw [Book.ledgerFrom, if_pos hlive.1, reverifyRecords, Region.record_dead, hlive.2,
                if_neg Bool.false_ne_true, Exec.run_bind_of_ok hrun, Exec.run_bind_of_ok hrun',
                Book.ledgerFrom, if_pos howned₁, Book.log_append, wrote_asked_wrote]
              rfl
          · right
            refine ⟨?_, hdbg, ?_⟩
            · rw [Book.ledgerFrom, if_pos hlive.1, reverifyRecords, Region.record_dead, hlive.2,
                if_neg Bool.false_ne_true, Exec.run_bind_of_ok hrun]
              exact Exec.panic_of_bind hpanic
            · rw [List.length_cons]
              omega
        · right
          refine ⟨?_, hover.2.1, ?_⟩
          · rw [Book.ledgerFrom, if_pos hlive.1, reverifyRecords, Region.record_dead, hlive.2,
              if_neg Bool.false_ne_true]
            exact Exec.panic_of_bind hover.1
          · have hlast := last_generation hover.2.2
            rw [List.length_cons]
            omega
      · have hsplit : b.regions = (ps ++ [r]) ++ rs := by
          rw [hregions, List.append_assoc]
          rfl
        obtain ⟨hallows, hrest⟩ := ih hs hsplit
        rw [List.length_append, List.length_singleton] at hallows hrest
        dsimp only
        rw [Book.sweep, if_neg hlive]
        refine ⟨hallows, ?_⟩
        by_cases howned : r.owned = true
        · have hdead : r.dead = true := by
            rw [← Bool.not_eq_false]
            exact fun h => hlive ⟨howned, h⟩
          rw [Book.ledgerFrom, if_pos howned, reverifyRecords, Region.record_dead, hdead,
            if_pos rfl]
          rcases hrest with ⟨rs', events, hregions', hrun'⟩ | ⟨hpanic, hdbg, hbound⟩
          · left
            refine ⟨r :: rs', events, ?_, ?_⟩
            · rw [hregions', List.append_assoc]
              rfl
            · rw [Exec.run_bind_of_ok hrun', Book.ledgerFrom, if_pos howned]
              rfl
          · right
            refine ⟨Exec.panic_of_bind hpanic, hdbg, ?_⟩
            rw [List.length_cons]
            omega
        · rw [Book.ledgerFrom, if_neg howned]
          rcases hrest with ⟨rs', events, hregions', hrun'⟩ | ⟨hpanic, hdbg, hbound⟩
          · left
            refine ⟨r :: rs', events, ?_, ?_⟩
            · rw [hregions', List.append_assoc]
              rfl
            · rw [hrun', Book.ledgerFrom, if_neg howned]
          · right
            refine ⟨hpanic, hdbg, ?_⟩
            rw [List.length_cons]
            omega

/-- The updates are emitted. -/
theorem run_emitUpdates (updates : List (RegionEvent × Option Bytes)) (s : RegionIpc τ) :
  ∃ (vnanos : UInt64) (emitted : List Emission),
    (emitUpdates updates).run s
      = ({ s with vnanos, emitted := s.emitted ++ emitted }, .ok ())
  := by
  induction updates generalizing s with
  | nil => exact ⟨s.vnanos, [], by rw [List.append_nil]; rfl⟩
  | cons update rest ih =>
      obtain ⟨event, alarm⟩ := update
      have hone : ∃ (vnanos : UInt64) (emitted : List Emission),
          (emitUpdates ((event, alarm) :: rest)).run s
            = (emitUpdates rest).run { s with vnanos, emitted := s.emitted ++ emitted } := by
        cases alarm with
        | none => exact ⟨s.vnanos + 1, _, rfl⟩
        | some msg =>
            refine ⟨s.vnanos + 1 + 1, [⟨s.vnanos, 0, .logLine agentStream 0 msg, false⟩]
              ++ [⟨s.vnanos + 1, 0, .regionUpdate event, rest.isEmpty⟩], ?_⟩
            rw [← List.append_assoc]
            rfl
      obtain ⟨vnanos, emitted, hone⟩ := hone
      obtain ⟨vnanos', emitted', hrest⟩ := ih { s with vnanos, emitted := s.emitted ++ emitted }
      refine ⟨vnanos', emitted ++ emitted', ?_⟩
      rw [hone, hrest, List.append_assoc]

/-- A sweep makes its changes and updates the ledger, unless the generation overflows on the
way. -/
theorem run_reverify (dbg : Bool) (f : Translator τ) (hs : s.Keeps b) :
  let swept := Book.sweep f s.translator b 0 b.regions
  b.AllowsAll swept.2 ∧
    ((∃ (vnanos : UInt64) (emitted : List Emission),
      (reverify dbg f).run s
        = ({ records := (b.applyAll swept.2).ledger
             translator := swept.1
             manifest := s.manifest.writeAll (b.log swept.2)
             vnanos
             emitted := s.emitted ++ emitted }, .ok ())) ∨
      (((reverify dbg f).run s).2 = .panic ∧ dbg = true ∧
        2 ^ 64 ≤ b.generation.toNat + 2 * b.regions.length))
  := by
  have hsweep := run_reverifyRecords dbg f hs.stored (List.nil_append b.regions).symm
  have hrecords : Book.ledgerFrom 0 b.regions = s.records := hs.records.symm
  simp only [List.length_nil, hrecords, List.nil_append] at hsweep
  obtain ⟨hallows, hrun⟩ := hsweep
  refine ⟨hallows, ?_⟩
  rcases hrun with ⟨rs', events, hregions, hrun⟩ | ⟨hpanic, hover⟩
  · left
    obtain ⟨vnanos, emitted, hemit⟩ := run_emitUpdates events
      { s with
        records := Book.ledgerFrom 0 rs'
        translator := (Book.sweep f s.translator b 0 b.regions).1
        manifest := s.manifest.writeAll (b.log (Book.sweep f s.translator b 0 b.regions).2) }
    refine ⟨vnanos, emitted, ?_⟩
    rw [reverify, Exec.run_bind_of_ok (Exec.run_get s), Exec.run_bind_of_ok hrun,
      Exec.run_bind_of_ok (Exec.run_modify _ _), Book.ledger, hregions]
    exact hemit
  · right
    refine ⟨?_, hover⟩
    rw [reverify, Exec.run_bind_of_ok (Exec.run_get s)]
    exact Exec.panic_of_bind hpanic

/-! ### Requests -/

section Requests

variable {n p : Nat} {req : Request} {peerPid : Int32} {workloadPid : Option Int32} {t : τ}
  {flags layoutVersion nameId : UInt32} {gva len : UInt64} {name : Bytes} {status : Status}

/-- Only the workload is served. -/
theorem run_handle_stranger (h : workloadPid ≠ some peerPid) :
  (handle dbg f req peerPid workloadPid).run s = (s, .ok (errReply .unknownPid))
  := by
  cases req with
  | register flags layoutVersion nameId gva len name =>
      rw [handle, if_pos h]
      rfl
  | unregister regionId =>
      rw [handle, if_pos h]
      rfl

/-- Why a region is refused on an answer of the translator. -/
def refusal (n p : Nat) : Except BuildExtentsError (List Extent) → Option Status
  | .error e => some (buildErrorStatus e)
  | .ok extents =>
      if regionCapacity ≤ n then some .manifestFull
      else if extentCapacity < p + extents.length then some .tooManyExtents
      else none

/-- A region that is refused changes nothing. -/
theorem run_handle_refused (h : Headed s.manifest g n p) (hname : name.length ≤ maxRegionName)
    (hflags : flags &&& regionFlagDead = 0)
    (hrefusal : refusal n p (f s.translator peerPid gva len).2 = some status) :
  (handle dbg f (.register flags layoutVersion nameId gva len name) peerPid (some peerPid)).run s
    = (s.asked (f s.translator peerPid gva len).1, .ok (errReply status))
  := by
  rw [handle, if_neg (not_not.mpr rfl), Exec.run_bind_of_ok (run_translate ..)]
  obtain ⟨t, ht⟩ : ∃ t, s.asked (f s.translator peerPid gva len).1 = t := ⟨_, rfl⟩
  have hheaded : Headed t.manifest g n p := by
    rw [← ht]
    exact h
  rw [ht]
  cases hanswer : (f s.translator peerPid gva len).2 with
  | error e =>
      rw [hanswer, refusal] at hrefusal
      rw [← Option.some.inj hrefusal]
      rfl
  | ok extents =>
      let r : Region :=
        { name, nameId, layoutVersion, flags, pid := peerPid, gva, len, extentOff := p, extents
          dead := false, owned := true, fits := hname, alive := hflags }
      rw [hanswer, refusal] at hrefusal
      dsimp only
      split at hrefusal
      · rename_i hfull
        have hrun := run_onManifest_of_err (s := t)
          (x := writeRegion dbg name nameId layoutVersion flags gva len extents)
          (run_writeRegion_full (r := r) dbg hheaded hfull)
        rw [Exec.run_bind_of_ok hrun, ← Option.some.inj hrefusal]
        rfl
      · rename_i hcount
        split at hrefusal
        · rename_i hpool
          have hrun := run_onManifest_of_err (s := t)
            (run_writeRegion_exhausted (r := r) dbg hheaded (Nat.not_le.mp hcount) hpool)
          rw [Exec.run_bind_of_ok hrun, ← Option.some.inj hrefusal]
          rfl
        · cases hrefusal

/-- The server with a region published in slot `n`. -/
def published (s : RegionIpc τ) (t : τ) (g : UInt64) (n p : Nat) (r : Region) : RegionIpc τ :=
  (s.asked t).wrote (sealedWrites g (publishWrites g n p r))

/-- The server with a region registered in slot `n`. -/
def registered (s : RegionIpc τ) (t : τ) (g : UInt64) (n p : Nat) (r : Region) : RegionIpc τ :=
  { s.published t g n p r with
    records := s.records ++ [r.record n]
    vnanos := s.vnanos + 1 + 1
    emitted := s.emitted
      ++ [⟨s.vnanos, 0, .nameIntern r.nameId r.name, false⟩]
      ++ [⟨s.vnanos + 1, 0, .regionRegister ⟨UInt32.ofNat n, r.nameId, r.layoutVersion,
            (g + 2).toUInt32⟩, true⟩] }

/-- A region that is not refused is published.  Behind the generations of 32 bits the request
fails all the same. -/
theorem run_handle_published (dbg : Bool) (h : Headed s.manifest g n p)
    (hanswer : f s.translator r.pid r.gva r.len = (t, .ok r.extents)) (hcount : n < regionCapacity)
    (hpool : p + r.extents.length ≤ extentCapacity) (hoff : r.extentOff = p)
    (hdead : r.dead = false) :
  (handle dbg f (.register r.flags r.layoutVersion r.nameId r.gva r.len r.name) r.pid
      (some r.pid)).run s
    = (if (g + 2).toNat < 2 ^ 32 then
        (s.registered t g n p r, .ok ⟨Status.ok.toU16, UInt32.ofNat n, r.nameId, g + 2⟩)
      else (s.published t g n p r, .ok (errReply .internal))) ∨
    Overflows dbg (handle dbg f (.register r.flags r.layoutVersion r.nameId r.gva r.len r.name)
      r.pid (some r.pid)) s g
  := by
  have hask : (translate f r.pid r.gva r.len).run s = (s.asked t, .ok (.ok r.extents)) := by
    rw [run_translate, hanswer]
  have hseals := run_writeRegion (s := (s.asked t).manifest) dbg h hcount hpool hoff hdead
  rcases run_onManifest_of_seals (s := s.asked t) hseals with hrun | hover
  · left
    rw [handle, if_neg (not_not.mpr rfl), Exec.run_bind_of_ok hask]
    dsimp only
    rw [Exec.run_bind_of_ok hrun]
    dsimp only
    split
    · rename_i hlarge
      rw [if_neg (Nat.not_lt.mpr hlarge)]
      rfl
    · rename_i hsmall
      rw [if_pos (Nat.not_le.mp hsmall), registered, Region.record, hdead]
      rfl
  · right
    refine ⟨?_, hover.2⟩
    rw [handle, if_neg (not_not.mpr rfl), Exec.run_bind_of_ok hask]
    exact Exec.panic_of_bind hover.1

/-- No live region has the id. -/
theorem run_handle_unknown {regionId : UInt32}
    (hfind : s.records.find? (fun r => r.regionId = regionId ∧ r.dead = false) = none) :
  (handle dbg f (.unregister regionId) peerPid (some peerPid)).run s
    = (s, .ok (errReply .unknownRegion))
  := by
  rw [handle, if_neg (not_not.mpr rfl), Exec.run_bind_of_ok (Exec.run_get s), hfind]
  rfl

/-- A live region is taken back. -/
theorem run_handle_unregister (dbg : Bool) {record : RegionRecord} (h : Headed s.manifest g n p)
    (hi : i < regionCapacity)
    (hfind : s.records.find? (fun r => r.regionId = UInt32.ofNat i ∧ r.dead = false)
      = some record) :
  (handle dbg f (.unregister (UInt32.ofNat i)) peerPid (some peerPid)).run s
    = ({ s.wrote (sealedWrites g (Slice.fieldsAt (RegionEntry.offset i)
            (deadEntry s.manifest i).fields)) with
          records := killRecord (UInt32.ofNat i) s.records },
        .ok ⟨Status.ok.toU16, UInt32.ofNat i, record.nameId, g + 2⟩) ∨
    Overflows dbg (handle dbg f (.unregister (UInt32.ofNat i)) peerPid (some peerPid)) s g
  := by
  rcases run_onManifest_of_seals (run_markRegionDead dbg h hi) with hrun | hover
  · left
    rw [handle, if_neg (not_not.mpr rfl), Exec.run_bind_of_ok (Exec.run_get s), hfind]
    dsimp only
    rw [Exec.run_bind_of_ok hrun]
    rfl
  · right
    refine ⟨?_, hover.2⟩
    rw [handle, if_neg (not_not.mpr rfl), Exec.run_bind_of_ok (Exec.run_get s), hfind]
    exact Exec.panic_of_bind hover.1

end Requests

end RegionIpc

end Agent
