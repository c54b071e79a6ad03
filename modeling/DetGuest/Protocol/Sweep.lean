import DetGuest.Agent.Emit
import DetGuest.Protocol.Turns

/-!
# Sweeps over the live regions

A sweep goes through the live records of the ledger in its order.  Its turns settle the regions one
after the other, and what they did is told on ring A afterwards.
-/

namespace Protocol.Regions

open Wire Wire.Regionipc Agent

/-! ### The turns of a sweep -/

/-- What a sweep made of the entry of a region and of its extents. -/
structure Became (m m' : ByteMem) (t : Turn) : Prop where
  entry : ∃ extentOff, RegionEntry.ofMem m' t.record.regionId.toNat =
    match t.fate with
    | .held => RegionEntry.ofMem m t.record.regionId.toNat
    | .drifted xs =>
        { RegionEntry.ofMem m t.record.regionId.toNat with
          extentOff
          extentN := UInt32.ofNat xs.length }
    | .died =>
        { RegionEntry.ofMem m t.record.regionId.toNat with
          flags := (RegionEntry.ofMem m t.record.regionId.toNat).flags ||| regionFlagDead }
  live : (RegionEntry.ofMem m' t.record.regionId.toNat).isLive = !t.settled.dead
  extents : extentsOf m' (RegionEntry.ofMem m' t.record.regionId.toNat) = t.settled.extents

/-- What a sweep made of the manifest: besides the entries of the regions that had a turn and
the used slots of the regions that drifted it left the entries and the used pool. -/
structure Swept (m m' : ByteMem) (p : Nat) (ts : List Turn) : Prop where
  became : ∀ t ∈ ts, Became m m' t
  entries : ∀ j < regionCapacity, (∀ t ∈ ts, t.record.regionId.toNat ≠ j) →
    RegionEntry.ofMem m' j = RegionEntry.ofMem m j
  extents : ∀ k < p, (∀ t ∈ ts, (∃ xs, t.fate = .drifted xs) →
      ¬ Uses (RegionEntry.ofMem m t.record.regionId.toNat) k) →
    Extent.ofMem m' k = Extent.ofMem m k

section Ledger

variable {τ : Type} {f : Translator τ} {dbg : Bool} {s : RegionIpc τ} {q : Progress τ}
  {r : RegionRecord} {rs : List RegionRecord} {ts : List Turn}

/-- Each live record has a turn, in the order of the ledger. -/
theorem turns_records (f : Translator τ) (q : Progress τ) (rs : List RegionRecord) :
  (turns f q rs).2.map Turn.record = liveRecords rs
  := by
  induction rs generalizing q with
  | nil => rfl
  | cons r rs ih =>
      rw [turns, liveRecords_cons]
      split
      · exact ih q
      · rw [List.map_cons, ih]
        rfl

theorem settle_nil (rs : List RegionRecord) :
  settle rs [] = rs
  := by
  cases rs with
  | nil => rfl
  | cons r rs => rfl

theorem settle_dead (hdead : r.dead = true) (ts : List Turn) :
  settle (r :: rs) ts = r :: settle rs ts
  := by
  cases ts with
  | nil => rw [settle_nil, settle_nil]
  | cons t ts => rw [settle, if_pos hdead]

variable {m m' : Slice} {m'' : ByteMem} {n i : Nat} {t : Turn}

/-- What one turn makes of its region. -/
theorem Turned.became (ht : Turned m m' n i t) (hi : t.record.regionId.toNat = i)
    (hdead : t.record.dead = false) (hlive : (RegionEntry.ofMem m.mem i).isLive = true)
    (hlisted : ofRecord t.record = ofEntry m.mem (RegionEntry.ofMem m.mem i))
    (hin : (RegionEntry.ofMem m.mem i).extentOff.toNat
      + (RegionEntry.ofMem m.mem i).extentN.toNat ≤ t.pool) :
  Became m.mem m'.mem t
  := by
  have hentry := ht.entry
  rw [← hi] at hentry
  refine ⟨?_, ?_, ?_⟩
  · rw [hentry]
    cases t.fate with
    | held => exact ⟨0, rfl⟩
    | drifted xs => exact ⟨_, rfl⟩
    | died => exact ⟨0, rfl⟩
  · rcases ht.region hdead hlive hlisted hin with ⟨_, hgone, hdied⟩ | ⟨hkept, hlive', _⟩
    · rw [hi, hgone, hdied, deadEntry_isLive]
      rfl
    · rw [hi, hkept, hlive']
      rfl
  · rcases ht.region hdead hlive hlisted hin with ⟨hfate, _, hdied⟩ | ⟨_, _, hsame⟩
    · have hsettled : t.settled.extents = t.record.extents := by rw [Turn.settled, hfate]
      have hold : extentsOf m.mem (RegionEntry.ofMem m.mem i) = t.record.extents :=
        (congrArg Listing.extents hlisted).symm
      rw [hi, hdied, hsettled, ← hold]
      apply extentsOf_congr (e := RegionEntry.ofMem m.mem i)
      intro k _
      apply ht.beside
      intro xs hxs
      rw [hfate] at hxs
      cases hxs
    · rw [hi]
      exact (congrArg Listing.extents hsame).symm

/-- A turn and the turns behind it. -/
theorem Swept.cons (ht : Turned m m' n i t) (hbecame : Became m.mem m'.mem t)
    (hi : t.record.regionId.toNat = i)
    (hn : (RegionEntry.ofMem m.mem i).extentN.toNat = t.record.extents.length)
    (hids : ∀ t' ∈ ts, i < t'.record.regionId.toNat ∧ t'.record.regionId.toNat < regionCapacity)
    (hrest : Swept m'.mem m'' t.poolBehind ts)
    (hkept : ∀ k, Uses (RegionEntry.ofMem m'.mem i) k →
      Extent.ofMem m'' k = Extent.ofMem m'.mem k) (hcap : i < regionCapacity) :
  Swept m.mem m'' t.pool (t :: ts)
  := by
  have hslot : ∀ t' ∈ ts, RegionEntry.ofMem m'.mem t'.record.regionId.toNat
      = RegionEntry.ofMem m.mem t'.record.regionId.toNat :=
    fun t' ht' => ht.entries _ (hids t' ht').2 (Nat.ne_of_gt (hids t' ht').1)
  have hself : RegionEntry.ofMem m'' i = RegionEntry.ofMem m'.mem i :=
    hrest.entries i hcap fun t' ht' => Nat.ne_of_gt (hids t' ht').1
  constructor
  · intro t' ht'
    rcases List.mem_cons.mp ht' with rfl | htail
    · refine ⟨?_, ?_, ?_⟩
      · rw [hi, hself, ← hi]
        exact hbecame.entry
      · rw [hi, hself, ← hi]
        exact hbecame.live
      · rw [hi, hself, extentsOf_congr hkept, ← hi]
        exact hbecame.extents
    · have hlater := hrest.became t' htail
      refine ⟨?_, hlater.live, hlater.extents⟩
      rw [← hslot t' htail]
      exact hlater.entry
  · intro j hj hnone
    rw [hrest.entries j hj fun t' ht' => hnone t' (List.mem_cons_of_mem _ ht')]
    apply ht.entries j hj
    rw [← hi]
    exact (hnone t List.mem_cons_self).symm
  · intro k hk hnone
    rw [hrest.extents k (Nat.lt_of_lt_of_le hk t.pool_le)]
    · apply ht.beside
      intro xs hxs
      have hfree := hnone t List.mem_cons_self ⟨xs, hxs⟩
      rw [hi, Uses] at hfree
      rw [placeAt]
      split
      · omega
      · exact Or.inl hk
    · intro t' ht' hdrift
      rw [hslot t' ht']
      exact hnone t' (List.mem_cons_of_mem _ ht') hdrift

theorem generationBehind_le (t : Turn) :
  t.generationBehind.toNat ≤ t.generation.toNat + 2
  := by
  have hsum : (t.generation + 2).toNat ≤ t.generation.toNat + 2 := by
    rw [UInt64.toNat_add]
    exact Nat.mod_le ..
  rw [Turn.generationBehind]
  cases t.fate with
  | held => exact Nat.le_add_right ..
  | drifted xs => exact hsum
  | died => exact hsum

/-- A sweep over a part of the ledger takes the turns of its live records, and the manifest agrees
with the ledger all the time. -/
theorem run_reverifyRecords (dbg : Bool) (f : Translator τ) (rs done rest : List RegionRecord)
    (hs : Agrees { s with records := done ++ rs ++ rest }) (hq : q.translator = s.translator)
    (hh : Headed s.manifest q.generation n q.pool)
    (hg : q.generation.toNat + 2 * (liveRecords rs).length < 2 ^ 32) :
  let swept := turns f q rs
  ∃ m' : Slice, (RegionIpc.reverifyRecords dbg f rs).run s
      = ({ s with translator := swept.1.translator, manifest := m' },
          .ok (settle rs swept.2, swept.2.map fun t => (t.event, t.alarm))) ∧
    Agrees { s with
      translator := swept.1.translator
      manifest := m'
      records := done ++ settle rs swept.2 ++ rest } ∧
    Headed m' swept.1.generation n swept.1.pool ∧ Swept s.manifest.mem m'.mem q.pool swept.2
  := by
  induction rs generalizing s q done with
  | nil =>
      refine ⟨s.manifest, ?_, ?_, hh, ?_⟩
      · rw [turns, hq]
        rfl
      · rw [turns, hq]
        exact hs
      · refine ⟨?_, fun _ _ _ => rfl, fun _ _ _ => rfl⟩
        intro t ht
        cases ht
  | cons r rs ih =>
      cases hdead : r.dead with
      | true =>
          have hsplit : done ++ r :: rs ++ rest = (done ++ [r]) ++ rs ++ rest := by simp
          rw [hsplit] at hs
          rw [liveRecords_cons, if_pos hdead] at hg
          obtain ⟨m', hrun, hagrees, hheaded, hswept⟩ := ih _ hs hq hh hg
          dsimp only
          rw [turns, if_pos hdead, settle_dead hdead]
          refine ⟨m', ?_, ?_, hheaded, hswept⟩
          · rw [RegionIpc.reverifyRecords, if_pos hdead, Exec.run_bind_of_ok hrun]
            rfl
          · rw [List.append_assoc, List.append_assoc] at hagrees
            rw [List.append_assoc]
            exact hagrees
      | false =>
          have hlive : ¬ r.dead = true := by
            rw [hdead]
            decide
          have hcons : done ++ r :: rs ++ rest = done ++ r :: (rs ++ rest) := by simp
          rw [hcons] at hs
          obtain ⟨i, k, hcount, hid, helive, hlisted, hdone, hrest⟩ := hs.split hdead
          rw [liveRecords_cons, if_neg hlive, List.length_cons] at hg
          have hn : (ManifestHeader.ofMem s.manifest.mem).regionCount.toNat = n := by
            rw [hh.header]
            exact hh.toNat_count
          have hpool : (ManifestHeader.ofMem s.manifest.mem).extentCount.toNat = q.pool := by
            rw [hh.header]
            exact hh.toNat_pool
          have hi : i < (ManifestHeader.ofMem s.manifest.mem).regionCount.toNat := by omega
          have hcap : i < regionCapacity := Nat.lt_of_lt_of_le hi hs.headed.count
          have hmem : RegionEntry.ofMem s.manifest.mem i ∈ entries s.manifest.mem :=
            List.mem_map_of_mem (List.mem_range.mpr hi)
          have hin := hs.inside _ hmem helive
          rw [hpool] at hin
          have hstep := run_reverifyRecord (r := r) dbg f hh hcap hid (extentN_eq hlisted) hin
            (by omega)
          rw [← hq] at hstep
          obtain ⟨t, ht⟩ : ∃ t, turnOf f q r = t := ⟨_, rfl⟩
          obtain ⟨m₁, hrun, hturned⟩ := hstep
          have hrecord : t.record = r := by rw [← ht]; rfl
          have hfront : t.pool = q.pool := by rw [← ht]; rfl
          have hgen : t.generation = q.generation := by rw [← ht]; rfl
          have hself : t.record.regionId.toNat = i := by
            rw [hrecord, hid]
            exact Word.toNat_ofNat_le (Nat.le_of_lt hcap) (by decide)
          change Turned s.manifest m₁ n i (turnOf f q r) at hturned
          rw [ht] at hturned
          have hagrees := hs.turned (t := t) { s with
              translator := (turned f q r).translator
              manifest := m₁
              records := done ++ t.settled :: (rs ++ rest) } hdead hcount helive hlisted hdone
            hrest hrecord (by rw [hfront, hpool]) (by rw [← hcount, hn]; exact hturned) rfl
          have hpool' : (turned f q r).pool = t.poolBehind := by rw [← ht]; rfl
          have hgen' : (turned f q r).generation = t.generationBehind := by rw [← ht]; rfl
          have hgrown := generationBehind_le t
          rw [hgen] at hgrown
          obtain ⟨m', hrun', hagrees', hheaded', hswept⟩ := ih
            (done ++ [t.settled])
            (s := { s with translator := (turned f q r).translator, manifest := m₁ })
            (q := turned f q r)
            (by rw [List.append_assoc, List.append_assoc]; exact hagrees) rfl
            (by rw [hpool', hgen']; exact hturned.headed) (by rw [hgen']; omega)
          have hlater : ∀ t' ∈ (turns f (turned f q r) rs).2, i < t'.record.regionId.toNat ∧
              t'.record.regionId.toNat < (ManifestHeader.ofMem s.manifest.mem).regionCount.toNat ∧
              (RegionEntry.ofMem s.manifest.mem t'.record.regionId.toNat).isLive = true := by
            intro t' ht'
            apply hs.behind hcount hrest
            rw [liveRecords_append, List.mem_append]
            left
            rw [← turns_records f (turned f q r) rs]
            exact List.mem_map_of_mem ht'
          dsimp only
          rw [turns, if_neg hlive, settle, if_neg hlive, ht]
          refine ⟨m', ?_, ?_, hheaded', ?_⟩
          · change (RegionIpc.reverifyRecord dbg f r).run s
              = ({ s with translator := (turned f q r).translator, manifest := m₁ },
                .ok ((turnOf f q r).settled, (turnOf f q r).event, (turnOf f q r).alarm)) at hrun
            rw [ht] at hrun
            rw [RegionIpc.reverifyRecords, if_neg hlive, Exec.run_bind_of_ok hrun,
              Exec.run_bind_of_ok hrun']
            rfl
          · rw [List.append_assoc, List.append_assoc] at hagrees'
            rw [List.append_assoc]
            exact hagrees'
          · rw [hpool'] at hswept
            rw [← hfront]
            have hlisted' : ofRecord t.record
                = ofEntry s.manifest.mem (RegionEntry.ofMem s.manifest.mem i) := by
              rw [hrecord]
              exact hlisted
            rw [← hfront] at hin
            apply Swept.cons hturned _ hself (extentN_eq hlisted') _ hswept _ hcap
            · exact hturned.became hself (by rw [hrecord]; exact hdead) helive hlisted' hin
            · intro t' ht'
              obtain ⟨hlt, hcap', _⟩ := hlater t' ht'
              exact ⟨hlt, Nat.lt_of_lt_of_le hcap' hs.headed.count⟩
            · intro l hl
              have hend := hturned.inside (extentN_eq hlisted') hin
              apply hswept.extents l (Nat.lt_of_lt_of_le hl.2 hend)
              intro t' ht' _ huse
              obtain ⟨hlt, hcap', hlive'⟩ := hlater t' ht'
              rw [hturned.entries _ (Nat.lt_of_lt_of_le hcap' hs.headed.count)
                (Nat.ne_of_gt hlt)] at huse
              exact hs.apart_turned hturned hi helive (by rw [hfront, hpool]) (extentN_eq hlisted')
                hcap' (Nat.ne_of_gt hlt) hlive' huse hl

theorem turns_append (f : Translator τ) (q : Progress τ) (xs ys : List RegionRecord) :
  turns f q (xs ++ ys)
    = ((turns f (turns f q xs).1 ys).1, (turns f q xs).2 ++ (turns f (turns f q xs).1 ys).2)
  := by
  induction xs generalizing q with
  | nil => rfl
  | cons r rs ih =>
      rw [List.cons_append, turns, turns]
      split
      · exact ih q
      · rw [ih]
        rfl

/-- There are no more live records than slots. -/
theorem Agrees.live_le (hs : Agrees s) :
  (liveRecords s.records).length ≤ regionCapacity
  := by
  have hlen := congrArg List.length hs.listed
  rw [List.length_map, List.length_map] at hlen
  calc (liveRecords s.records).length
      = ((entries s.manifest.mem).filter fun e => e.isLive).length := hlen
    _ ≤ (entries s.manifest.mem).length := List.length_filter_le ..
    _ = (ManifestHeader.ofMem s.manifest.mem).regionCount.toNat := by
        rw [entries, List.length_map, List.length_range]
    _ ≤ regionCapacity := hs.headed.count

/-! ### What a sweep tells -/

/-- What a sweep emits: an update about each region that had a turn, a text in front of it when
the region drifted or died, and a doorbell behind the last update. -/
def told : List Turn → List (EventPayload × Bool)
  | [] => []
  | t :: ts =>
      (match t.alarm with
        | some msg => [(.logLine agentStream 0 msg, false)]
        | none => [])
        ++ (.regionUpdate t.event, ts.isEmpty) :: told ts

/-- The updates of a sweep are emitted. -/
theorem run_emitUpdates (ts : List Turn) (s : RegionIpc τ) :
  ∃ (vnanos : UInt64) (es : List Emission),
    (RegionIpc.emitUpdates (ts.map fun t => (t.event, t.alarm))).run s
      = ({ s with vnanos, emitted := s.emitted ++ es }, .ok ()) ∧
    es.map (fun e => (e.ev, e.doorbell)) = told ts
  := by
  induction ts generalizing s with
  | nil => exact ⟨s.vnanos, [], by rw [List.append_nil]; rfl, rfl⟩
  | cons t ts ih =>
      have hlast : (ts.map fun t => (t.event, t.alarm)).isEmpty = ts.isEmpty := List.isEmpty_map
      cases halarm : t.alarm with
      | none =>
          obtain ⟨vnanos, es, hrun, htold⟩ := ih { s with
            vnanos := s.vnanos + 1
            emitted := s.emitted ++ [⟨s.vnanos, 0, .regionUpdate t.event, ts.isEmpty⟩] }
          refine ⟨vnanos, ⟨s.vnanos, 0, .regionUpdate t.event, ts.isEmpty⟩ :: es, ?_, ?_⟩
          · rw [List.append_assoc, ← hlast] at hrun
            rw [List.map_cons, halarm, ← hlast]
            exact hrun
          · rw [List.map_cons, htold, told, halarm]
            rfl
      | some msg =>
          obtain ⟨vnanos, es, hrun, htold⟩ := ih { s with
            vnanos := s.vnanos + 1 + 1
            emitted := s.emitted ++ [⟨s.vnanos, 0, .logLine agentStream 0 msg, false⟩]
              ++ [⟨s.vnanos + 1, 0, .regionUpdate t.event, ts.isEmpty⟩] }
          refine ⟨vnanos, ⟨s.vnanos, 0, .logLine agentStream 0 msg, false⟩
            :: ⟨s.vnanos + 1, 0, .regionUpdate t.event, ts.isEmpty⟩ :: es, ?_, ?_⟩
          · have hjoin : ∀ a b : Emission, s.emitted ++ (a :: b :: es)
                = s.emitted ++ [a] ++ [b] ++ es := by simp
            rw [← hlast] at hrun
            rw [List.map_cons, halarm, hjoin, ← hlast]
            exact hrun
          · rw [List.map_cons, List.map_cons, htold, told, halarm]
            rfl

/-- Of what a sweep emits the updates are of a critical kind, and there is one for each turn. -/
theorem told_updates (ts : List Turn) :
  ((told ts).filter fun x => x.1.kind.isCritical).map Prod.fst
    = ts.map fun t => .regionUpdate t.event
  := by
  induction ts with
  | nil => rfl
  | cons t ts ih =>
      rw [told, List.filter_append, List.map_append, List.filter_cons_of_pos rfl, List.map_cons, ih,
        List.map_cons]
      cases t.alarm with
      | none => rfl
      | some msg => rfl

/-- A turn leaves an even generation. -/
theorem generationBehind_even (heven : t.generation % 2 = 0) :
  t.generationBehind % 2 = 0
  := by
  rw [Turn.generationBehind]
  cases t.fate with
  | held => exact heven
  | drifted xs => exact even_add_two heven
  | died => exact even_add_two heven

/-- A turn in which a region is held keeps the generation. -/
theorem generationBehind_held (hfate : t.fate = .held) :
  t.generationBehind = t.generation
  := by
  rw [Turn.generationBehind, hfate]

/-- The generations of a sweep are even and grow by two at most in each turn. -/
theorem turns_generations (f : Translator τ) (q : Progress τ) (rs : List RegionRecord)
    (heven : q.generation % 2 = 0) :
  ∀ t ∈ (turns f q rs).2, t.generationBehind % 2 = 0 ∧
    t.generationBehind.toNat ≤ q.generation.toNat + 2 * (liveRecords rs).length
  := by
  induction rs generalizing q with
  | nil =>
      intro t ht
      cases ht
  | cons r rs ih =>
      intro t ht
      rw [turns] at ht
      rw [liveRecords_cons]
      split at ht
      · rename_i hdead
        rw [if_pos hdead]
        exact ih q heven t ht
      · rename_i hlive
        rw [if_neg hlive, List.length_cons]
        have hone := generationBehind_le (turnOf f q r)
        have hfront : (turnOf f q r).generation = q.generation := rfl
        rw [hfront] at hone
        rcases List.mem_cons.mp ht with rfl | htail
        · exact ⟨generationBehind_even heven, by omega⟩
        · have hrest := ih (turned f q r) (generationBehind_even (t := turnOf f q r) heven) t htail
          have hbehind : (turned f q r).generation = (turnOf f q r).generationBehind := rfl
          rw [hbehind] at hrest
          exact ⟨hrest.1, by omega⟩

/-- Turns in which nothing drifts or dies keep the generation. -/
theorem turns_held (f : Translator τ) (q : Progress τ) (rs : List RegionRecord)
    (hheld : ∀ t ∈ (turns f q rs).2, t.fate = .held) :
  (turns f q rs).1.generation = q.generation
  := by
  induction rs generalizing q with
  | nil => rfl
  | cons r rs ih =>
      rw [turns] at hheld ⊢
      split at hheld
      · rename_i hdead
        rw [if_pos hdead]
        exact ih q hheld
      · rename_i hlive
        rw [if_neg hlive, ih (turned f q r) fun t ht => hheld t (List.mem_cons_of_mem _ ht)]
        exact generationBehind_held (hheld _ List.mem_cons_self)

/-- Where a sweep over the ledger starts. -/
def start (s : RegionIpc τ) : Progress τ :=
  { translator := s.translator
    pool := (ManifestHeader.ofMem s.manifest.mem).extentCount.toNat
    generation := (ManifestHeader.ofMem s.manifest.mem).generation }

/-- The turns of a sweep over the ledger. -/
def sweepTurns (f : Translator τ) (s : RegionIpc τ) : List Turn :=
  (turns f (start s) s.records).2

/-- The generation of the manifest behind a sweep over a part of the ledger. -/
def generationAfter (dbg : Bool) (f : Translator τ) (s : RegionIpc τ) (rs : List RegionRecord) :
    UInt64 :=
  (ManifestHeader.ofMem ((RegionIpc.reverifyRecords dbg f rs).run s).1.manifest.mem).generation

/-- What a sweep does to the regions: each live region has a turn.  It dies exactly when its range
does not translate, or it has grown and there is no room for its extents; otherwise it has the
extents that the translator found.  It does so in the ledger and in the manifest, and nothing else
is changed. -/
structure Resettled (f : Translator τ) (s s' : RegionIpc τ) : Prop where
  each : (sweepTurns f s).map Turn.record = liveRecords s.records
  dies : ∀ t ∈ sweepTurns f s, t.settled.dead = true ↔ (∃ e, t.answer = .error e) ∨
    ∃ xs, t.answer = .ok xs ∧ t.record.extents.length < xs.length ∧
      extentCapacity < t.pool + xs.length
  lives : ∀ t ∈ sweepTurns f s, t.settled.dead = false → t.answer = .ok t.settled.extents
  records : s'.records = settle s.records (sweepTurns f s)
  manifest : Swept s.manifest.mem s'.manifest.mem (start s).pool (sweepTurns f s)
  generation : (∀ t ∈ sweepTurns f s, t.fate = .held) →
    (ManifestHeader.ofMem s'.manifest.mem).generation = (start s).generation

/-- What a sweep emits: one update for each turn, with the generation that the manifest has behind
the turn, and a text in front of it exactly when the region drifted or died. -/
structure Retold (dbg : Bool) (f : Translator τ) (s s' : RegionIpc τ) (es : List Emission) :
    Prop where
  emitted : s'.emitted = s.emitted ++ es
  told : es.map (fun e => (e.ev, e.doorbell)) = told (sweepTurns f s)
  alarm : ∀ t ∈ sweepTurns f s, t.alarm = none ↔ t.fate = .held
  generation : ∀ t ∈ sweepTurns f s, t.generationBehind % 2 = 0 ∧
    t.event.manifestGeneration.toNat = t.generationBehind.toNat
  behind : ∀ done r rest, s.records = done ++ r :: rest → r.dead = false →
    ∃ t ts, sweepTurns f s = (turns f (start s) done).2 ++ t :: ts ∧ t.record = r ∧
      generationAfter dbg f s (done ++ [r]) = t.generationBehind
  lands : ∀ (σ ε : Type) (part : Exec.Part σ Producer) (ring : RingMap) (base fuel : Nat)
      (doorbell : Exec σ ε Unit) (x x' : σ) (landed : List Emission),
    (emitAll dbg part ring base doorbell fuel es).run x = (x', .ok landed) →
    landed.Sublist es ∧ (landed.filter Emission.isCritical).map (fun e => e.ev)
      = (sweepTurns f s).map fun t => .regionUpdate t.event

theorem settled_dead (t : Turn) (hdead : t.record.dead = false) :
  t.settled.dead = true ↔ t.fate = .died
  := by
  rw [Turn.settled]
  cases t.fate <;> simp [hdead]

/-- A region that does not die has the extents that the translator found. -/
theorem answer_of_settled (t : Turn) (hlive : t.settled.dead = false) :
  t.answer = .ok t.settled.extents
  := by
  rw [Turn.settled] at hlive ⊢
  rcases t.fate_cases with ⟨hok, hfate⟩ | ⟨xs, hok, _, _, hfate⟩ | ⟨_, _, _, _, hfate⟩ | ⟨_, _, hfate⟩
  · rw [hfate]
    exact hok
  · rw [hfate]
    exact hok
  · rw [hfate] at hlive
    cases hlive
  · rw [hfate] at hlive
    cases hlive

/-- The book with the sample region. -/
def sampleBook : Book := (Book.vacant 0).publish sampleRegion

/-- A server with the sample region. -/
def sampleServer : RegionIpc Unit :=
  { vacant (fun _ => 0) () 0 with
    records := sampleBook.ledger
    manifest := (vacant (fun _ => 0) () 0).manifest.writeAll
      (sealedWrites 0 ((Book.vacant 0).writes (.publish sampleRegion))) }

theorem keeps_sampleServer :
  sampleServer.Keeps sampleBook
  := by
  refine ⟨?_, rfl⟩
  have hvacant : (Book.vacant 0).Stored (vacant (fun _ => 0) () 0).manifest := stored_vacant _ _ rfl
  have hallows : (Book.vacant 0).Allows (.publish sampleRegion) :=
    .publish (by decide) (by decide) rfl rfl
  exact hvacant.apply hallows

theorem agrees_sampleServer :
  Agrees sampleServer
  := by
  apply agrees_of_keeps keeps_sampleServer
  intro r hr
  obtain rfl := List.mem_singleton.mp hr
  rfl

/-- A translator that finds each range at another place. -/
def driftingTranslator : Translator Unit := fun _ _ gva len => ((), .ok [⟨gva + 0x1000, len⟩])

end Ledger

end Protocol.Regions
