import DetGuest.Sdk.History

/-!
# The stats region mirrors the tables

The host reads the counters of the SDK off the stats region.  The totals and the beacons are kept
twice.  A name gets a slot of its table when it is counted there for the first time, as long as there
are free slots, and its slot follows the intern table from then on.
-/

namespace Sdk

open Wire

/-! ### First occurrences -/

section Firsts

variable {α : Type} [BEq α] [LawfulBEq α]

theorem eraseDups_concat (xs : List α) (x : α) :
  (xs ++ [x]).eraseDups = if x ∈ xs then xs.eraseDups else xs.eraseDups ++ [x]
  := by
  rw [List.eraseDups_append]
  by_cases hx : x ∈ xs
  · rw [if_pos hx]
    simp [List.removeAll, hx]
  · rw [if_neg hx]
    simp [List.removeAll, hx, List.eraseDups_cons]

theorem nodup_eraseDups (xs : List α) :
  xs.eraseDups.Nodup
  := by
  induction xs using List.reverseRecOn with
  | nil => exact List.nodup_nil
  | append_singleton xs x ih =>
      rw [eraseDups_concat]
      split
      · exact ih
      · next hx =>
        apply List.nodup_append.mpr
        refine ⟨ih, List.nodup_singleton x, ?_⟩
        intro a ha b hb heq
        rw [List.mem_singleton] at hb
        exact hx (List.mem_eraseDups.mp (hb ▸ heq ▸ ha))

end Firsts

/-- The name that a point asserts. -/
def Point.assertion : Point → Option Bytes
  | .assertAlways _ name _ => some name
  | _ => none

/-- Names are compared by their bytes. -/
instance lawfulBEq_bytes : LawfulBEq Bytes := List.instLawfulBEq

/-- The names that a history has counted, of those that the intern table has taken, in the order in
which they were counted first. -/
def firsts (f : Point → Option Bytes) (before : List Point) : List Bytes :=
  ((before.filterMap f).filter fun name => name ∈ names before).eraseDups

/-- The names that were hit. -/
def hitNames (before : List Point) : List Bytes := firsts Point.hit before

/-- The names that were asserted. -/
def assertedNames (before : List Point) : List Bytes := firsts Point.assertion before

theorem name_of_assertion {p : Point} {x : Bytes} (h : p.assertion = some x) :
  p.name = some x
  := by
  cases p with
  | assertAlways cond name details => exact h
  | _ => cases h

section Histories

variable {before : List Point} {p : Point} {f : Point → Option Bytes} {name : Bytes}

theorem nodup_firsts (f : Point → Option Bytes) (before : List Point) :
  (firsts f before).Nodup
  := nodup_eraseDups _

theorem mem_firsts :
  name ∈ firsts f before ↔ name ∈ before.filterMap f ∧ name ∈ names before
  := by
  rw [firsts, List.mem_eraseDups, List.mem_filter, decide_eq_true_eq]

/-- A name that was used is taken afterwards if it was taken before. -/
theorem mem_names_concat_iff (huse : name ∈ before.filterMap Point.name) (p : Point) :
  name ∈ names (before ++ [p]) ↔ name ∈ names before
  := by
  cases hp : p.name with
  | none => rw [names_concat_of_none hp]
  | some use =>
      rw [names_concat_of_some hp, addName]
      split
      · next hnew =>
        rw [List.mem_append, List.mem_singleton]
        constructor
        · rintro (hold | rfl)
          · exact hold
          · exact mem_names_of_used huse hnew.1 hnew.2.2
        · exact Or.inl
      · rfl

theorem used_of_counted (hf : ∀ {p x}, f p = some x → p.name = some x)
    (h : name ∈ before.filterMap f) :
  name ∈ before.filterMap Point.name
  := by
  obtain ⟨p, hp, hname⟩ := List.mem_filterMap.mp h
  exact List.mem_filterMap.mpr ⟨p, hp, hf hname⟩

/-- The names that were counted before are those that are counted afterwards. -/
theorem filter_names_concat (hf : ∀ {p x}, f p = some x → p.name = some x) (p : Point) :
  ((before.filterMap f).filter fun name => name ∈ names (before ++ [p]))
    = (before.filterMap f).filter fun name => name ∈ names before
  := by
  apply List.filter_congr
  intro x hx
  rw [decide_eq_decide]
  exact mem_names_concat_iff (used_of_counted hf hx) p

theorem firsts_concat_of_none (hf : ∀ {p x}, f p = some x → p.name = some x) (h : f p = none) :
  firsts f (before ++ [p]) = firsts f before
  := by
  rw [firsts, firsts, List.filterMap_append, List.filterMap_cons, h, List.filterMap_nil,
    List.append_nil, filter_names_concat hf]

/-- A name that is counted gets behind those that were counted, unless it is among them. -/
theorem firsts_concat_of_some (hf : ∀ {p x}, f p = some x → p.name = some x) (h : f p = some name) :
  firsts f (before ++ [p])
    = if name ∈ names (before ++ [p]) ∧ name ∉ firsts f before then firsts f before ++ [name]
      else firsts f before
  := by
  have hone : [p].filterMap f = [name] := by rw [List.filterMap_cons, h, List.filterMap_nil]
  rw [firsts, List.filterMap_append, hone, List.filter_append, filter_names_concat hf]
  by_cases hmem : name ∈ names (before ++ [p])
  · have hkeep : [name].filter (fun name => decide (name ∈ names (before ++ [p]))) = [name] := by
      simp [hmem]
    rw [hkeep, eraseDups_concat]
    by_cases hold : name ∈ firsts f before
    · rw [if_pos (List.mem_eraseDups.mp hold), if_neg (fun h => h.2 hold), firsts]
    · rw [if_neg (fun h => hold (List.mem_eraseDups.mpr h)), if_pos ⟨hmem, hold⟩, firsts]
  · have hdrop : [name].filter (fun name => decide (name ∈ names (before ++ [p]))) = [] := by
      simp [hmem]
    rw [hdrop, List.append_nil, if_neg (fun h => hmem h.1), firsts]

end Histories

/-! ### Tables of names -/

section Tables

variable {α : Type} {id : α → UInt32} {nameId : UInt32} {a c : List α} {b : α}

/-- The name has a slot. -/
theorem namedSlot_taken (hbefore : ∀ e ∈ a, id e ≠ nameId) (hid : id b = nameId) :
  namedSlot id nameId (a ++ b :: c) = some a.length
  := by
  have hfind : (a ++ b :: c).findIdx? (fun e => id e = nameId) = some a.length := by
    rw [List.findIdx?_append, List.findIdx?_eq_none_iff.mpr (by simpa using hbefore),
      List.findIdx?_cons, if_pos (by simpa using hid)]
    simp
  rw [namedSlot, hfind]

/-- The name gets the first free slot. -/
theorem namedSlot_free (hnone : ∀ e ∈ a ++ b :: c, id e ≠ nameId) (hbefore : ∀ e ∈ a, id e ≠ 0)
    (hfree : id b = 0) :
  namedSlot id nameId (a ++ b :: c) = some a.length
  := by
  have hfind : (a ++ b :: c).findIdx? (fun e => id e = 0) = some a.length := by
    rw [List.findIdx?_append, List.findIdx?_eq_none_iff.mpr (by simpa using hbefore),
      List.findIdx?_cons, if_pos (by simpa using hfree)]
    simp
  rw [namedSlot, List.findIdx?_eq_none_iff.mpr (by simpa using hnone), hfind]

/-- There is no slot for the name. -/
theorem namedSlot_none (hnone : ∀ e ∈ a, id e ≠ nameId) (hfull : ∀ e ∈ a, id e ≠ 0) :
  namedSlot id nameId a = none
  := by
  rw [namedSlot, List.findIdx?_eq_none_iff.mpr (by simpa using hnone),
    List.findIdx?_eq_none_iff.mpr (by simpa using hfull)]

/-- Store the statistic of a name in its slot, unless there is none for it. -/
def storeNamed (id : α → UInt32) (nameId : UInt32) (stat : α) (slots : List α) : List α :=
  match namedSlot id nameId slots with
  | some index => slots.set index stat
  | none => slots

/-- A table with slots for the first of some names, and zeros behind them. -/
def nameTable (stat : Bytes → α) (zero : α) (taken : List Bytes) : List α :=
  (taken.take nameSlots).map stat ++ List.replicate (nameSlots - taken.length) zero

variable {stat stat' : Bytes → α} {zero : α} {taken : List Bytes} {name : Bytes}

theorem nameTable_congr (h : ∀ x ∈ taken, stat' x = stat x) :
  nameTable stat' zero taken = nameTable stat zero taken
  := by
  rw [nameTable, nameTable]
  congr 1
  apply List.map_congr_left
  intro x hx
  exact h x (List.mem_of_mem_take hx)

/-- A name that has a slot, or had found none, is counted. -/
theorem storeNamed_old (hmem : name ∈ taken) (hnodup : taken.Nodup)
    (hsame : ∀ x, x ≠ name → stat' x = stat x) (hname : id (stat name) = nameId)
    (hother : ∀ x ∈ taken, x ≠ name → id (stat x) ≠ nameId) (hids : ∀ x ∈ taken, id (stat x) ≠ 0) :
  storeNamed id nameId (stat' name) (nameTable stat zero taken)
    = nameTable stat' zero taken
  := by
  by_cases hslot : name ∈ taken.take nameSlots
  · obtain ⟨front, back, hsplit⟩ := List.append_of_mem hslot
    have hnd : (front ++ name :: back).Nodup := hsplit ▸ hnodup.sublist (List.take_sublist ..)
    have hfront : ∀ x ∈ front, x ≠ name := by
      rintro x hx rfl
      exact (List.nodup_append.mp hnd).2.2 x hx x List.mem_cons_self rfl
    have hback : ∀ x ∈ back, x ≠ name := by
      rintro x hx rfl
      exact (List.nodup_cons.mp (List.nodup_append.mp hnd).2.1).1 hx
    have htaken : ∀ x ∈ front, x ∈ taken := by
      intro x hx
      apply List.mem_of_mem_take
      rw [hsplit]
      exact List.mem_append_left _ hx
    have hfind : namedSlot id nameId (front.map stat ++ stat name :: (back.map stat ++
        List.replicate (nameSlots - taken.length) zero)) = some (front.map stat).length := by
      apply namedSlot_taken _ hname
      intro e he
      obtain ⟨x, hx, rfl⟩ := List.mem_map.mp he
      exact hother x (htaken x hx) (hfront x hx)
    have hmap : ∀ xs : List Bytes, (∀ x ∈ xs, x ≠ name) → xs.map stat' = xs.map stat :=
      fun xs hxs => List.map_congr_left fun x hx => hsame x (hxs x hx)
    rw [storeNamed, nameTable, nameTable, hsplit, List.map_append, List.map_append, List.map_cons,
      List.map_cons, List.append_assoc, List.append_assoc, List.cons_append, List.cons_append, hfind,
      hmap front hfront, hmap back hback]
    simp
  · have hlen : nameSlots < taken.length := by
      by_contra hle
      rw [List.take_of_length_le (by omega)] at hslot
      exact hslot hmem
    have hzeros : nameSlots - taken.length = 0 := by omega
    have hne : ∀ x ∈ taken.take nameSlots, x ≠ name := by
      rintro x hx rfl
      exact hslot hx
    have hfind : namedSlot id nameId ((taken.take nameSlots).map stat) = none := by
      apply namedSlot_none
      · intro e he
        obtain ⟨x, hx, rfl⟩ := List.mem_map.mp he
        exact hother x (List.mem_of_mem_take hx) (hne x hx)
      · intro e he
        obtain ⟨x, hx, rfl⟩ := List.mem_map.mp he
        exact hids x (List.mem_of_mem_take hx)
    rw [storeNamed, nameTable, nameTable, hzeros, List.replicate_zero, List.append_nil,
      List.append_nil, hfind]
    symm
    apply List.map_congr_left
    intro x hx
    exact hsame x (hne x hx)

/-- A name that is counted for the first time gets a slot if there is one. -/
theorem storeNamed_new (hnew : name ∉ taken) (hsame : ∀ x, x ≠ name → stat' x = stat x)
    (hother : ∀ x ∈ taken, id (stat x) ≠ nameId) (hids : ∀ x ∈ taken, id (stat x) ≠ 0)
    (hname : nameId ≠ 0) (hzero : id zero = 0) :
  storeNamed id nameId (stat' name) (nameTable stat zero taken)
    = nameTable stat' zero (taken ++ [name])
  := by
  have hmap : ∀ xs : List Bytes, (∀ x ∈ xs, x ∈ taken) → xs.map stat' = xs.map stat := by
    intro xs hxs
    apply List.map_congr_left
    intro x hx
    apply hsame
    rintro rfl
    exact hnew (hxs x hx)
  have hslots : ∀ e ∈ (taken.take nameSlots).map stat, id e ≠ nameId ∧ id e ≠ 0 := by
    intro e he
    obtain ⟨x, hx, rfl⟩ := List.mem_map.mp he
    exact ⟨hother x (List.mem_of_mem_take hx), hids x (List.mem_of_mem_take hx)⟩
  by_cases hroom : taken.length < nameSlots
  · obtain ⟨n, hn⟩ : ∃ n, nameSlots - taken.length = n + 1 :=
      Nat.exists_eq_succ_of_ne_zero (by omega)
    have hall : taken.take nameSlots = taken := List.take_of_length_le (by omega)
    rw [hall] at hslots
    have hfind : namedSlot id nameId (taken.map stat ++ zero :: List.replicate n zero)
        = some (taken.map stat).length := by
      apply namedSlot_free
      · intro e he
        rcases List.mem_append.mp he with he | he
        · exact (hslots e he).1
        · have heq : e = zero := by
            rcases List.mem_cons.mp he with rfl | he
            · rfl
            · exact List.eq_of_mem_replicate he
          rw [heq, hzero]
          exact hname.symm
      · exact fun e he => (hslots e he).2
      · exact hzero
    have hrest : nameSlots - (taken ++ [name]).length = n := by
      rw [List.length_append, List.length_singleton]
      omega
    have hlater : (taken ++ [name]).take nameSlots = taken ++ [name] := by
      apply List.take_of_length_le
      rw [List.length_append, List.length_singleton]
      omega
    rw [storeNamed, nameTable, nameTable, hall, hn, hrest, hlater, List.replicate_succ, hfind,
      List.map_append, hmap taken (fun _ h => h)]
    simp
  · have hzeros : nameSlots - taken.length = 0 := by omega
    have hlater : nameSlots - (taken ++ [name]).length = 0 := by
      rw [List.length_append]
      omega
    rw [storeNamed, nameTable, nameTable, hzeros, hlater, List.replicate_zero, List.append_nil,
      List.append_nil, namedSlot_none (fun e he => (hslots e he).1) (fun e he => (hslots e he).2),
      List.take_append_of_le_length (by omega), hmap _ (fun x hx => List.mem_of_mem_take hx)]

theorem StatsRegion.recordReachable_eq (r : StatsRegion) (nameId hits : UInt32) :
  r.recordReachable nameId hits
    = { r with reachable := storeNamed ReachableStat.nameId nameId ⟨nameId, hits⟩ r.reachable }
  := by
  rw [recordReachable, storeNamed]
  cases namedSlot ReachableStat.nameId nameId r.reachable with
  | some index => rfl
  | none => rfl

theorem StatsRegion.recordAssert_eq (r : StatsRegion) (nameId pass fail : UInt32) :
  r.recordAssert nameId pass fail
    = { r with
        assertions := storeNamed AssertStat.nameId nameId ⟨nameId, pass, fail⟩ r.assertions }
  := by
  rw [recordAssert, storeNamed]
  cases namedSlot AssertStat.nameId nameId r.assertions with
  | some index => rfl
  | none => rfl

end Tables

/-! ### The slots behind a history -/

/-- The slots of the names that a history has counted.  `stat` makes the slot of a name with an
id. -/
def slots {α : Type} (f : Point → Option Bytes) (stat : UInt32 → List Point → Bytes → α) (zero : α)
    (before : List Point) : List α :=
  nameTable (fun name => stat (nameId (names before) name) before name) zero (firsts f before)

section Slots

variable {α : Type} {f : Point → Option Bytes} {stat : UInt32 → List Point → Bytes → α} {zero : α}
  {before : List Point} {p : Point} {name : Bytes}

theorem nameId_concat (hmem : name ∈ names before) (p : Point) :
  nameId (names (before ++ [p])) name = nameId (names before) name
  := by
  cases hp : p.name with
  | none => rw [names_concat_of_none hp]
  | some use =>
      rw [names_concat_of_some hp, addName]
      split
      · exact nameId_append hmem _
      · rfl

/-- A point that counts for none of the slots leaves them alone. -/
theorem slots_silent (hf : ∀ {p x}, f p = some x → p.name = some x)
    (hother : ∀ id, ∀ x ∈ names before, stat id (before ++ [p]) x = stat id before x)
    (hnone : ∀ x ∈ names (before ++ [p]), f p ≠ some x) :
  slots f stat zero (before ++ [p]) = slots f stat zero before
  := by
  have hsame : firsts f (before ++ [p]) = firsts f before := by
    cases hp : f p with
    | none => exact firsts_concat_of_none hf hp
    | some name =>
        rw [firsts_concat_of_some hf hp, if_neg]
        exact fun h => hnone name h.1 hp
  rw [slots, slots, hsame]
  apply nameTable_congr
  intro x hx
  have hmem := (mem_firsts.mp hx).2
  rw [nameId_concat hmem, hother _ x hmem]

/-- A point that counts for a name stores its slot. -/
theorem slots_counted (id : α → UInt32) (stat : UInt32 → List Point → Bytes → α) (zero : α)
    (hf : ∀ {p x}, f p = some x → p.name = some x) (hid : ∀ i b x, id (stat i b x) = i) (hzero : id zero = 0) (hp : f p = some name)
    (hmem : name ∈ names (before ++ [p]))
    (hother : ∀ i x, x ≠ name → stat i (before ++ [p]) x = stat i before x) :
  let i := nameId (names (before ++ [p])) name
  storeNamed id i (stat i (before ++ [p]) name) (slots f stat zero before)
    = slots f stat zero (before ++ [p])
  := by
  have hlen := length_names_le (before ++ [p])
  let old (x : Bytes) : α := stat (nameId (names (before ++ [p])) x) before x
  let new (x : Bytes) : α := stat (nameId (names (before ++ [p])) x) (before ++ [p]) x
  have hold : slots f stat zero before = nameTable old zero (firsts f before) := by
    rw [slots]
    apply nameTable_congr
    intro x hx
    dsimp only [old]
    rw [nameId_concat (mem_firsts.mp hx).2]
  have hsame : ∀ x, x ≠ name → new x = old x := fun x hx => hother _ x hx
  have hlater : ∀ x ∈ firsts f before, x ∈ names (before ++ [p]) := by
    intro x hx
    obtain ⟨hcounted, hx⟩ := mem_firsts.mp hx
    exact (mem_names_concat_iff (used_of_counted hf hcounted) p).mpr hx
  have hids : ∀ x ∈ firsts f before, id (old x) ≠ 0 := by
    intro x hx
    rw [hid]
    exact nameId_ne_zero (hlater x hx) hlen
  have hapart : ∀ x ∈ firsts f before, x ≠ name →
      id (old x) ≠ nameId (names (before ++ [p])) name := by
    intro x hx hne heq
    rw [hid] at heq
    exact hne (nameId_inj (hlater x hx) hmem hlen heq)
  dsimp only
  rw [hold, slots, firsts_concat_of_some hf hp]
  by_cases hmember : name ∈ firsts f before
  · rw [if_neg (fun h => h.2 hmember)]
    exact storeNamed_old hmember (nodup_firsts f before) hsame (hid _ _ _) hapart hids
  · rw [if_pos ⟨hmem, hmember⟩]
    apply storeNamed_new hmember hsame _ hids (nameId_ne_zero hmem hlen) hzero
    intro x hx
    apply hapart x hx
    rintro rfl
    exact hmember hx

end Slots

/-! ### The mirror -/

/-- The slot of a name that was hit. -/
def reachableStat (id : UInt32) (before : List Point) (name : Bytes) : ReachableStat :=
  ⟨id, counter (hits before name)⟩

/-- The slot of a name that was asserted. -/
def assertStat (id : UInt32) (before : List Point) (name : Bytes) : AssertStat :=
  ⟨id, counter (asserts true before name), counter (asserts false before name)⟩

/-- What the stats region holds behind a history. -/
structure Mirrored (before : List Point) (s : SdkState) : Prop where
  passed : s.statsRegion.assertsPassedTotal = s.stats.assertsPassedTotal
  failed : s.statsRegion.assertsFailedTotal = s.stats.assertsFailedTotal
  reached : s.statsRegion.reachableNames = s.stats.reachableNames
  queries : s.statsRegion.injectQueriesTotal = s.stats.injectQueriesTotal
  distinct : s.stats.reachableNames = UInt64.ofNat (hitNames before).length
  beacons : s.statsRegion.beaconCounts = s.beacons.counts
  reachable : s.statsRegion.reachable = slots Point.hit reachableStat ⟨0, 0⟩ before
  assertions : s.statsRegion.assertions = slots Point.assertion assertStat ⟨0, 0, 0⟩ before

theorem mirrored_new :
  Mirrored [] .new
  := by
  refine ⟨rfl, rfl, rfl, rfl, rfl, rfl, ?_, ?_⟩
  · rfl
  · rfl

theorem saturatingSucc64_ofNat {n : Nat} (h : n < 2 ^ 32) :
  saturatingSucc64 (UInt64.ofNat n) = UInt64.ofNat (n + 1)
  := by
  have hn : (UInt64.ofNat n).toNat = n := by
    rw [UInt64.toNat_ofNat']
    omega
  rw [saturatingSucc64, if_neg]
  · exact (UInt64.ofNat_add n 1).symm
  · intro hfull
    rw [hfull] at hn
    have htop : (0xFFFFFFFFFFFFFFFF : UInt64).toNat = 0xFFFFFFFFFFFFFFFF := rfl
    omega

section Steps

variable {before : List Point} {p : Point} {name : Bytes} {s s' : SdkState}

theorem length_firsts_le (f : Point → Option Bytes) (before : List Point) :
  (firsts f before).length ≤ maxNames
  := by
  apply Nat.le_trans _ (length_names_le before)
  apply List.Subperm.length_le
  apply (nodup_firsts f before).subperm
  intro x hx
  exact (mem_firsts.mp hx).2

theorem mem_names_later (hmem : name ∈ names before) (p : Point) :
  name ∈ names (before ++ [p])
  := by
  cases hp : p.name with
  | none =>
      rw [names_concat_of_none hp]
      exact hmem
  | some use =>
      rw [names_concat_of_some hp, addName]
      split
      · exact List.mem_append_left _ hmem
      · exact hmem

variable (before) in
/-- A point that hits no name that was taken. -/
theorem reachable_silent (h : ∀ x ∈ names (before ++ [p]), p.hit ≠ some x) :
  slots Point.hit reachableStat ⟨0, 0⟩ (before ++ [p]) = slots Point.hit reachableStat ⟨0, 0⟩ before ∧
    hitNames (before ++ [p]) = hitNames before
  := by
  constructor
  · apply slots_silent name_of_hit _ h
    intro id x hx
    rw [reachableStat, reachableStat, hits_concat, if_neg (h x (mem_names_later hx p)), Nat.add_zero]
  · cases hp : p.hit with
    | none => exact firsts_concat_of_none name_of_hit hp
    | some name =>
        rw [hitNames, firsts_concat_of_some name_of_hit hp, if_neg (fun hnew => h name hnew.1 hp)]
        rfl

theorem assertion_of_asserted {cond : Bool} {x : Bytes} (h : p.asserted cond = some x) :
  p.assertion = some x
  := by
  cases p with
  | assertAlways c name details => exact name_of_asserted h
  | _ => cases h

variable (before) in
/-- A point that asserts no name that was taken. -/
theorem assertions_silent (h : ∀ x ∈ names (before ++ [p]), p.assertion ≠ some x) :
  slots Point.assertion assertStat ⟨0, 0, 0⟩ (before ++ [p])
    = slots Point.assertion assertStat ⟨0, 0, 0⟩ before
  := by
  apply slots_silent name_of_assertion _ h
  intro id x hx
  have hne := h x (mem_names_later hx p)
  rw [assertStat, assertStat, asserts_concat, asserts_concat,
    if_neg (fun h => hne (assertion_of_asserted h)), if_neg (fun h => hne (assertion_of_asserted h)),
    Nat.add_zero, Nat.add_zero]

/-- A point that counts for no name that was taken. -/
theorem Mirrored.silent (h : Mirrored before s) (hhit : ∀ x ∈ names (before ++ [p]), p.hit ≠ some x)
    (hassert : ∀ x ∈ names (before ++ [p]), p.assertion ≠ some x) (hstats : s'.stats = s.stats)
    (hregion : s'.statsRegion = s.statsRegion) (hbeacons : s'.beacons = s.beacons) :
  Mirrored (before ++ [p]) s'
  := by
  obtain ⟨hreachable, hnames⟩ := reachable_silent before hhit
  constructor
  · rw [hregion, hstats, h.passed]
  · rw [hregion, hstats, h.failed]
  · rw [hregion, hstats, h.reached]
  · rw [hregion, hstats, h.queries]
  · rw [hstats, hnames, h.distinct]
  · rw [hregion, hbeacons, h.beacons]
  · rw [hregion, hreachable, h.reachable]
  · rw [hregion, assertions_silent before hassert, h.assertions]

/-- The slots of the assertions behind an assertion. -/
theorem assertions_counted (cond : Bool) (details : Bytes)
    (hmem : name ∈ names (before ++ [.assertAlways cond name details])) :
  let after := before ++ [.assertAlways cond name details]
  storeNamed AssertStat.nameId (nameId (names after) name)
      ⟨nameId (names after) name, counter (asserts true after name),
        counter (asserts false after name)⟩
      (slots Point.assertion assertStat ⟨0, 0, 0⟩ before)
    = slots Point.assertion assertStat ⟨0, 0, 0⟩ after
  := by
  apply slots_counted AssertStat.nameId assertStat ⟨0, 0, 0⟩ (p := .assertAlways cond name details)
    name_of_assertion (fun _ _ _ => rfl) rfl rfl hmem
  intro i x hx
  have hne : ∀ c, Point.asserted c (.assertAlways cond name details) ≠ some x := by
    intro c heq
    exact hx (Option.some.inj (assertion_of_asserted heq)).symm
  rw [assertStat, assertStat, asserts_concat, asserts_concat, if_neg (hne true), if_neg (hne false),
    Nat.add_zero, Nat.add_zero]

/-- The slots of the names behind a hit. -/
theorem reachable_counted (hmem : name ∈ names (before ++ [.expectReachable name])) :
  let after := before ++ [.expectReachable name]
  storeNamed ReachableStat.nameId (nameId (names after) name)
      ⟨nameId (names after) name, counter (hits before name + 1)⟩
      (slots Point.hit reachableStat ⟨0, 0⟩ before)
    = slots Point.hit reachableStat ⟨0, 0⟩ after
  := by
  have hcount : hits (before ++ [.expectReachable name]) name = hits before name + 1 := by
    rw [hits_concat, Point.hit, if_pos rfl]
  have hother : ∀ i x, x ≠ name → reachableStat i (before ++ [.expectReachable name]) x
      = reachableStat i before x := by
    intro i x hx
    rw [reachableStat, reachableStat, hits_concat, Point.hit,
      if_neg (fun h => hx (Option.some.inj h).symm), Nat.add_zero]
  have hstore := slots_counted ReachableStat.nameId reachableStat ⟨0, 0⟩ (p := .expectReachable name)
    name_of_hit (fun _ _ _ => rfl) rfl rfl hmem hother
  dsimp only at hstore ⊢
  rw [← hstore, reachableStat, hcount]

/-- A name was hit before if it is among those that were hit. -/
theorem mem_hitNames_iff (hmem : name ∈ names (before ++ [p])) :
  name ∈ hitNames before ↔ hits before name ≠ 0
  := by
  rw [hitNames, mem_firsts, hits, ne_eq, List.count_eq_zero, not_not]
  constructor
  · exact fun h => h.1
  · intro h
    exact ⟨h, (mem_names_concat_iff (used_of_counted name_of_hit h) p).mp hmem⟩

theorem beaconSlot_ofNat (id : UInt32) :
  beaconSlot (UInt32.ofNat (beaconSlot id)) = beaconSlot id
  := by
  have hmask : ∀ v : UInt32, beaconSlot v = v.toNat % 2 ^ 16 := by
    intro v
    rw [beaconSlot, UInt32.toNat_and]
    exact Nat.and_two_pow_sub_one_eq_mod v.toNat 16
  rw [hmask, hmask, UInt32.toNat_ofNat']
  omega

/-- Interning a name changes the intern table only. -/
theorem SdkState.internName_frame (s : SdkState) (name : Bytes) (flags : UInt8) :
  ∃ t, (s.internName name flags).1 = { s with intern := t }
  := by
  rw [internName]
  rcases s.intern.intern name with ⟨t, _ | _⟩
  · exact ⟨t, rfl⟩
  · exact ⟨t, rfl⟩

/-- **One point.**  A point keeps the stats region in step with the tables. -/
theorem Mirrored.point (h : Mirrored before s) (ht : Tracks before s) (p : Point) :
  Mirrored (before ++ [p]) (s.point p).1
  := by
  have hnodup := nodup_names (before ++ [p])
  have hlen := length_names_le (before ++ [p])
  cases p with
  | assertAlways cond name details =>
      rw [SdkState.point, SdkState.assertAlways]
      by_cases hmem : name ∈ names (before ++ [.assertAlways cond name details])
      · obtain ⟨hreachable, hnames⟩ :=
          reachable_silent before (p := .assertAlways cond name details) (by simp [Point.hit])
        have hassertions := assertions_counted cond details hmem
        rw [SdkState.internName_taken ht.intern rfl 0 rfl hmem]
        cases cond with
        | true =>
            dsimp only
            rw [if_pos rfl, SdkState.assertPassed_eq rfl hmem hnodup hlen details,
              StatsRegion.recordAssert_eq]
            refine ⟨rfl, h.failed, h.reached, h.queries, ?_, h.beacons, ?_, ?_⟩
            · rw [hnames]
              exact h.distinct
            · rw [hreachable]
              exact h.reachable
            · rw [← hassertions, ← h.assertions]
        | false =>
            dsimp only
            rw [if_neg (by simp), SdkState.assertFailed_eq rfl hmem hnodup hlen details,
              StatsRegion.recordAssert_eq]
            refine ⟨h.passed, rfl, h.reached, h.queries, ?_, h.beacons, ?_, ?_⟩
            · rw [hnames]
              exact h.distinct
            · rw [hreachable]
              exact h.reachable
            · rw [← hassertions, ← h.assertions]
      · rw [SdkState.internName_refused ht.intern rfl hmem]
        apply h.silent (by simp [Point.hit]) _ rfl rfl rfl
        intro x hx heq
        exact hmem (Option.some.inj heq ▸ hx)
  | expectReachable name =>
      rw [SdkState.point, SdkState.expectReachable]
      by_cases hmem : name ∈ names (before ++ [.expectReachable name])
      · have hassertions := assertions_silent before (p := .expectReachable name)
          (by simp [Point.assertion])
        have hreachable := reachable_counted hmem
        have hnames : firsts Point.hit (before ++ [.expectReachable name]) = _ :=
          firsts_concat_of_some name_of_hit rfl
        have hshort : (hitNames before).length < 2 ^ 32 :=
          Nat.lt_of_le_of_lt (length_firsts_le Point.hit before) (by decide)
        rw [SdkState.internName_taken ht.intern rfl 0 rfl hmem]
        dsimp only
        rw [SdkState.reached_eq rfl hmem hnodup hlen, StatsRegion.recordReachable_eq]
        by_cases hfirst : hits before name = 0
        · have hnew : name ∉ firsts Point.hit before :=
            fun hold => (mem_hitNames_iff hmem).mp hold hfirst
          rw [if_pos hfirst]
          refine ⟨h.passed, h.failed, rfl, h.queries, ?_, h.beacons, ?_, ?_⟩
          · dsimp only
            rw [hitNames, hnames, if_pos ⟨hmem, hnew⟩, List.length_append, List.length_singleton,
              h.distinct]
            exact saturatingSucc64_ofNat hshort
          · rw [← hreachable, ← h.reachable]
          · rw [hassertions]
            exact h.assertions
        · have hold : name ∈ firsts Point.hit before := (mem_hitNames_iff hmem).mpr hfirst
          rw [if_neg hfirst]
          refine ⟨h.passed, h.failed, h.reached, h.queries, ?_, h.beacons, ?_, ?_⟩
          · rw [hitNames, hnames, if_neg (fun hnew => hnew.2 hold)]
            exact h.distinct
          · rw [← hreachable, ← h.reachable]
          · rw [hassertions]
            exact h.assertions
      · rw [SdkState.internName_refused ht.intern rfl hmem]
        apply h.silent _ (by simp [Point.assertion]) rfl rfl rfl
        intro x hx heq
        exact hmem (Option.some.inj heq ▸ hx)
  | declareReachable name =>
      rw [SdkState.point, SdkState.declareReachable]
      obtain ⟨t, hframe⟩ := s.internName_frame name flagReachableDecl
      dsimp only
      rw [hframe]
      exact h.silent (by simp [Point.hit]) (by simp [Point.assertion]) rfl rfl rfl
  | coverageBeacon id =>
      rw [SdkState.point, SdkState.coverageBeacon]
      obtain ⟨hreachable, hnames⟩ :=
        reachable_silent before (p := .coverageBeacon id) (by simp [Point.hit])
      have hassertions := assertions_silent before (p := .coverageBeacon id)
        (by simp [Point.assertion])
      refine ⟨h.passed, h.failed, h.reached, h.queries, ?_, ?_, ?_, ?_⟩
      · rw [hnames]
        exact h.distinct
      · dsimp only [BeaconCounters.hit, StatsRegion.recordBeacon]
        rw [beaconSlot_ofNat, h.beacons]
      · rw [hreachable]
        exact h.reachable
      · rw [hassertions]
        exact h.assertions
  | injectPoint name =>
      rw [SdkState.point]
      obtain ⟨hreachable, hnames⟩ :=
        reachable_silent before (p := .injectPoint name) (by simp [Point.hit])
      have hassertions := assertions_silent before (p := .injectPoint name)
        (by simp [Point.assertion])
      have hcounted : Mirrored (before ++ [.injectPoint name]) s.countInject := by
        refine ⟨h.passed, h.failed, h.reached, rfl, ?_, h.beacons, ?_, ?_⟩
        · rw [hnames]
          exact h.distinct
        · rw [hreachable]
          exact h.reachable
        · rw [hassertions]
          exact h.assertions
      have hintern : s.countInject.intern = table (names before) before := ht.intern
      by_cases hmem : name ∈ names (before ++ [.injectPoint name])
      · rw [SdkState.internName_taken hintern rfl 0 rfl hmem]
        exact ⟨hcounted.passed, hcounted.failed, hcounted.reached, hcounted.queries, hcounted.distinct,
          hcounted.beacons, hcounted.reachable, hcounted.assertions⟩
      · rw [SdkState.internName_refused hintern rfl hmem]
        exact hcounted

/-- **Runs of points.** -/
theorem Mirrored.points (h : Mirrored before s) (ht : Tracks before s) (ps : List Point) :
  Mirrored (before ++ ps) (s.points ps).1
  := by
  induction ps generalizing before s with
  | nil =>
      rw [List.append_nil]
      exact h
  | cons p ps ih =>
      have hend := ih (h.point ht p) (ht.point p).1
      rw [List.append_assoc, List.singleton_append] at hend
      exact hend

end Steps

/-! ### What the host reads -/

/-- A table of the stats region lists the entries of some names: those of the first names in their
order, with zeros behind them. -/
def Lists {α : Type} (t : InternTable) (stat : InternEntry → α) (zero : α) (listed : List Bytes)
    (region : List α) : Prop :=
  ∃ es : List InternEntry,
    es.map InternEntry.name = listed.take nameSlots ∧
    (∀ e ∈ es, e ∈ t.entries) ∧
    (es.map InternEntry.id).Nodup ∧
    (∀ e ∈ es, e.id ≠ 0) ∧
    region = es.map stat ++ List.replicate (nameSlots - es.length) zero

/-- The stats region mirrors the SDK behind a history. -/
structure Mirrors (before : List Point) (s : SdkState) : Prop where
  passed : s.statsRegion.assertsPassedTotal = s.stats.assertsPassedTotal
  failed : s.statsRegion.assertsFailedTotal = s.stats.assertsFailedTotal
  reached : s.statsRegion.reachableNames = s.stats.reachableNames
  queries : s.statsRegion.injectQueriesTotal = s.stats.injectQueriesTotal
  distinct : s.statsRegion.reachableNames.toNat = (hitNames before).length
  beacons : ∀ slot, s.statsRegion.beaconCounts slot = s.beacons.counts slot
  reachable : Lists s.intern (fun e => ⟨e.id, e.reachableHits⟩) ⟨0, 0⟩ (hitNames before)
    s.statsRegion.reachable
  assertions : Lists s.intern (fun e => ⟨e.id, e.assertPasses, e.assertFailures⟩) ⟨0, 0, 0⟩
    (assertedNames before) s.statsRegion.assertions

/-- The slots behind a history list the entries of the names that it has counted. -/
theorem lists_slots {α : Type} {f : Point → Option Bytes}
    {stat : UInt32 → List Point → Bytes → α} {shown : InternEntry → α} (zero : α)
    {before : List Point} {s : SdkState} (ht : Tracks before s)
    (hshown : ∀ x, shown (entryOf (names before) before x)
      = stat (nameId (names before) x) before x) :
  Lists s.intern shown zero (firsts f before) (slots f stat zero before)
  := by
  have hlen := length_names_le before
  have hmem : ∀ x ∈ (firsts f before).take nameSlots, x ∈ names before :=
    fun x hx => (mem_firsts.mp (List.mem_of_mem_take hx)).2
  refine ⟨((firsts f before).take nameSlots).map (entryOf (names before) before), ?_, ?_, ?_, ?_, ?_⟩
  · rw [List.map_map]
    exact List.map_id _
  · intro e he
    obtain ⟨x, hx, rfl⟩ := List.mem_map.mp he
    rw [ht.intern]
    exact List.mem_map_of_mem (hmem x hx)
  · rw [List.map_map]
    apply List.Nodup.map_on
    · intro x hx y hy heq
      exact nameId_inj (hmem x hx) (hmem y hy) hlen heq
    · exact (nodup_firsts f before).sublist (List.take_sublist ..)
  · intro e he
    obtain ⟨x, hx, rfl⟩ := List.mem_map.mp he
    exact nameId_ne_zero (hmem x hx) hlen
  · have hzeros : nameSlots - ((firsts f before).take nameSlots).length
        = nameSlots - (firsts f before).length := by
      rw [List.length_take]
      omega
    rw [slots, nameTable, List.map_map, List.length_map, hzeros]
    congr 1
    apply List.map_congr_left
    intro x _
    exact (hshown x).symm

theorem Mirrored.mirrors {before : List Point} {s : SdkState} (h : Mirrored before s)
    (ht : Tracks before s) :
  Mirrors before s
  := by
  have hshort := length_firsts_le Point.hit before
  rw [maxNames] at hshort
  refine ⟨h.passed, h.failed, h.reached, h.queries, ?_, ?_, ?_, ?_⟩
  · rw [h.reached, h.distinct, hitNames, UInt64.toNat_ofNat']
    omega
  · intro slot
    rw [h.beacons]
  · rw [h.reachable]
    exact lists_slots _ ht fun _ => rfl
  · rw [h.assertions]
    exact lists_slots _ ht fun _ => rfl

end Sdk
