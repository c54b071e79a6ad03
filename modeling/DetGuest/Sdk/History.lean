import DetGuest.Sdk.Calls

/-!
# Histories of instrumentation points

What the tables of the SDK hold, and what it emits, in terms of the instrumentation points that have
been passed before: which names were used, how often a name was hit or its assertion failed, and how
often a beacon was hit.
-/

namespace Sdk

open Wire

/-! ### Points -/

/-- An instrumentation point. -/
inductive Point where
  | assertAlways (cond : Bool) (name details : Bytes)
  | expectReachable (name : Bytes)
  | declareReachable (name : Bytes)
  | coverageBeacon (id : UInt32)
  | injectPoint (name : Bytes)
  deriving DecidableEq, Repr

/-- The call of a point. -/
def Point.call : Point → Call
  | .assertAlways cond name details => .assertAlways cond name details
  | .expectReachable name => .expectReachable name
  | .declareReachable name => .declareReachable name
  | .coverageBeacon id => .coverageBeacon id
  | .injectPoint name => .injectPoint name

/-- The state behind a point, and the events that it hands to ring W. -/
def SdkState.point (s : SdkState) : Point → SdkState × List Emission
  | .assertAlways cond name details => s.assertAlways cond name details
  | .expectReachable name => s.expectReachable name
  | .declareReachable name => s.declareReachable name
  | .coverageBeacon id => s.coverageBeacon id
  | .injectPoint name =>
      match s.countInject.internName name 0 with
      | (s, out, none) => (s, out)
      | (s, out, some nameId) =>
          ({ s with nextIseq := s.nextIseq + 1 },
            out ++ [⟨0, .injectQuery s.nextIseq nameId, .critical⟩])

/-- The state behind points, and the events that they hand to ring W. -/
def SdkState.points (s : SdkState) : List Point → SdkState × List Emission
  | [] => (s, [])
  | p :: ps => (((s.point p).1.points ps).1, (s.point p).2 ++ ((s.point p).1.points ps).2)

/-! ### What a history says -/

/-- The name that a point is given. -/
def Point.name : Point → Option Bytes
  | .assertAlways _ name _ => some name
  | .expectReachable name => some name
  | .declareReachable name => some name
  | .coverageBeacon _ => none
  | .injectPoint name => some name

/-- The name that a point hits. -/
def Point.hit : Point → Option Bytes
  | .expectReachable name => some name
  | _ => none

/-- The name of an assertion, if its condition is `cond`. -/
def Point.asserted (cond : Bool) : Point → Option Bytes
  | .assertAlways c name _ => if c = cond then some name else none
  | _ => none

/-- The slot of the beacon that a point hits. -/
def Point.beacon : Point → Option Nat
  | .coverageBeacon id => some (beaconSlot id)
  | _ => none

/-- How many names the intern table takes. -/
def maxNames : Nat := 2 ^ 32 - 2

/-- The names of the intern table behind the use of a name. -/
def addName (names : List Bytes) (name : Bytes) : List Bytes :=
  if validName name ∧ name ∉ names ∧ names.length < maxNames then names ++ [name] else names

/-- The names of a history that the intern table has taken, in the order of their first use. -/
def names (before : List Point) : List Bytes := (before.filterMap Point.name).foldl addName []

/-- The id of a name in the intern table. -/
def nameId (names : List Bytes) (name : Bytes) : UInt32 := UInt32.ofNat (names.idxOf name + 1)

/-- How often a name was hit. -/
def hits (before : List Point) (name : Bytes) : Nat := (before.filterMap Point.hit).count name

/-- How often the assertion of a name had the condition `cond`. -/
def asserts (cond : Bool) (before : List Point) (name : Bytes) : Nat :=
  (before.filterMap (Point.asserted cond)).count name

/-- How often a beacon was hit. -/
def beaconHits (before : List Point) (slot : Nat) : Nat :=
  (before.filterMap Point.beacon).count slot

/-- The flags of the announcement of the name of a point. -/
def Point.flags : Point → UInt8
  | .assertAlways _ _ _ => 0
  | .expectReachable _ => 0
  | .declareReachable _ => flagReachableDecl
  | .coverageBeacon _ => 0
  | .injectPoint _ => 0

/-- The announcement of the name of a point, if it is taken and was not taken before. -/
def announced (before : List Point) (p : Point) : List Emission :=
  match p.name with
  | some name =>
      if name ∈ names (before ++ [p]) ∧ name ∉ names before then
        [⟨p.flags, .nameIntern (nameId (names (before ++ [p])) name) name, .critical⟩]
      else []
  | none => []

/-- The report of the violation behind `n` others. -/
def violation (id : UInt32) (n : Nat) (details : Bytes) : List Emission :=
  if n < 16 then [⟨0, .assertViolation id (UInt32.ofNat (n + 1)) details, .critical⟩]
  else if n = 16 then [⟨0, .assertViolation id 17 suppressedDetails, .critical⟩]
  else []

/-- What a point reports besides the announcement of its name.  A point with a name that the intern
table does not take reports nothing. -/
def reported (before : List Point) (p : Point) : List Emission :=
  let taken := names (before ++ [p])
  match p with
  | .assertAlways cond name details =>
      if name ∈ taken ∧ cond = false then
        violation (nameId taken name) (asserts false before name) details
      else []
  | .expectReachable name =>
      if name ∈ taken ∧ hits before name = 0 then [⟨0, .reachable (nameId taken name), .critical⟩]
      else []
  | .coverageBeacon id =>
      if beaconHits before (beaconSlot id) = 0 then
        [⟨0, .beacon (UInt32.ofNat (beaconSlot id)), .droppable⟩]
      else []
  | .declareReachable _ => []
  | .injectPoint _ => []

/-- The events of a point behind a history, inject queries aside. -/
def expected (before : List Point) (p : Point) : List Emission :=
  announced before p ++ reported before p

/-- The inject query of a point behind a history. -/
def asked (s : SdkState) (before : List Point) (p : Point) : List Emission :=
  match p with
  | .injectPoint name =>
      if name ∈ names (before ++ [p]) then
        [⟨0, .injectQuery s.nextIseq (nameId (names (before ++ [p])) name), .critical⟩]
      else []
  | .assertAlways _ _ _ => []
  | .expectReachable _ => []
  | .declareReachable _ => []
  | .coverageBeacon _ => []

/-- The events of points behind a history. -/
def expectedAll (before : List Point) : List Point → List Emission
  | [] => []
  | p :: ps => expected before p ++ expectedAll (before ++ [p]) ps

/-- The events that are not inject queries. -/
def asideQueries (es : List Emission) : List Emission :=
  es.filter fun e => e.ev.kind ≠ .injectQuery

/-! ### Names -/

section Names

variable {before : List Point} {p : Point} {name : Bytes}

theorem names_concat_of_some (h : p.name = some name) :
  names (before ++ [p]) = addName (names before) name
  := by
  simp [names, List.filterMap_append, h]

theorem names_concat_of_none (h : p.name = none) :
  names (before ++ [p]) = names before
  := by
  simp [names, List.filterMap_append, h]

theorem addName_of_mem {taken : List Bytes} (h : name ∈ taken) :
  addName taken name = taken
  := if_neg fun hnew => hnew.2.1 h

theorem addName_invalid {taken : List Bytes} (h : ¬ validName name = true) :
  addName taken name = taken
  := if_neg fun hnew => h hnew.1

theorem addName_full {taken : List Bytes} (h : ¬ taken.length < maxNames) :
  addName taken name = taken
  := if_neg fun hnew => h hnew.2.2

theorem addName_new {taken : List Bytes} (hvalid : validName name = true) (hnew : name ∉ taken)
    (hroom : taken.length < maxNames) :
  addName taken name = taken ++ [name]
  := if_pos ⟨hvalid, hnew, hroom⟩

/-- A property that each use of a name keeps. -/
theorem names_induct {P : List Bytes → Prop} (hnil : P [])
    (hadd : ∀ names name, P names → validName name = true → name ∉ names →
      names.length < maxNames → P (names ++ [name])) (before : List Point) :
  P (names before)
  := by
  have hall : ∀ (uses names : List Bytes), P names → P (uses.foldl addName names) := by
    intro uses
    induction uses with
    | nil => exact fun _ h => h
    | cons name uses ih =>
        intro names h
        apply ih
        rw [addName]
        split
        · next hnew => exact hadd names name h hnew.1 hnew.2.1 hnew.2.2
        · exact h
  exact hall _ [] hnil

theorem nodup_names (before : List Point) :
  (names before).Nodup
  := by
  apply names_induct List.nodup_nil
  intro names name h _ hnew _
  rw [List.nodup_append]
  refine ⟨h, List.nodup_singleton name, ?_⟩
  intro a ha b hb heq
  rw [List.mem_singleton] at hb
  exact hnew (hb ▸ heq ▸ ha)

theorem length_names_le (before : List Point) :
  (names before).length ≤ maxNames
  := by
  apply names_induct (P := fun names => names.length ≤ maxNames) (Nat.zero_le _)
  intro names name _ _ _ hlen
  rw [List.length_append, List.length_singleton]
  omega


/-- A name that was used before and was not taken is not taken any more. -/
theorem mem_names_of_used (huse : name ∈ before.filterMap Point.name)
    (hvalid : validName name = true) (hroom : (names before).length < maxNames) :
  name ∈ names before
  := by
  have hkept : ∀ (uses taken : List Bytes) {x : Bytes},
      x ∈ taken → x ∈ uses.foldl addName taken := by
    intro uses
    induction uses with
    | nil => exact fun _ _ h => h
    | cons use uses ih =>
        intro taken x h
        apply ih
        rw [addName]
        split
        · exact List.mem_append_left _ h
        · exact h
  have hgrows : ∀ (uses taken : List Bytes), taken.length ≤ (uses.foldl addName taken).length := by
    intro uses
    induction uses with
    | nil => exact fun _ => Nat.le_refl _
    | cons use uses ih =>
        intro taken
        apply Nat.le_trans _ (ih (addName taken use))
        rw [addName]
        split
        · rw [List.length_append]
          exact Nat.le_add_right _ _
        · exact Nat.le_refl _
  obtain ⟨earlier, later, hsplit⟩ := List.append_of_mem huse
  rw [names, hsplit, List.foldl_append, List.foldl_cons] at hroom ⊢
  apply hkept
  have hlen := Nat.lt_of_le_of_lt (hgrows later _) hroom
  rw [addName] at hlen ⊢
  split
  · exact List.mem_append_right _ (List.mem_singleton_self name)
  · next hold =>
    rw [if_neg hold] at hlen
    by_contra hnew
    exact hold ⟨hvalid, hnew, hlen⟩

/-! ### Ids -/

variable {taken : List Bytes}

theorem nameId_append (h : name ∈ taken) (new : List Bytes) :
  nameId (taken ++ new) name = nameId taken name
  := by
  rw [nameId, nameId, List.idxOf_append_of_mem h]

theorem nameId_fresh (h : name ∉ taken) :
  nameId (taken ++ [name]) name = UInt32.ofNat (taken.length + 1)
  := by
  rw [nameId, List.idxOf_append_of_notMem h, List.idxOf_cons_self, Nat.add_zero]

theorem toNat_nameId (h : name ∈ taken) (hlen : taken.length ≤ maxNames) :
  (nameId taken name).toNat = taken.idxOf name + 1
  := by
  have hlt := List.idxOf_lt_length_of_mem h
  rw [nameId, UInt32.toNat_ofNat']
  rw [maxNames] at hlen
  omega

theorem nameId_ne_zero (h : name ∈ taken) (hlen : taken.length ≤ maxNames) :
  nameId taken name ≠ 0
  := by
  intro hzero
  have hid := toNat_nameId h hlen
  rw [hzero] at hid
  cases hid

/-- Different names have different ids. -/
theorem nameId_inj {other : Bytes} (h : name ∈ taken) (hother : other ∈ taken)
    (hlen : taken.length ≤ maxNames) (heq : nameId taken name = nameId taken other) :
  name = other
  := by
  have hid := congrArg UInt32.toNat heq
  rw [toNat_nameId h hlen, toNat_nameId hother hlen] at hid
  exact (List.idxOf_inj h).mp (Nat.succ.inj hid)

theorem names_refused (hname : p.name = some name) (hmem : name ∉ names (before ++ [p])) :
  names (before ++ [p]) = names before
  := by
  rw [names_concat_of_some hname, addName] at hmem ⊢
  split
  · next hnew =>
    rw [if_pos hnew] at hmem
    exact absurd (List.mem_append_right _ (List.mem_singleton_self name)) hmem
  · rfl

end Names

/-! ### Counters -/

/-- A counter that has counted to `n`. -/
def counter (n : Nat) : UInt32 := UInt32.ofNat (min n 0xFFFFFFFF)

theorem toNat_counter (n : Nat) :
  (counter n).toNat = min n 0xFFFFFFFF
  := by
  rw [counter, UInt32.toNat_ofNat']
  omega

theorem saturatingSucc_counter (n : Nat) :
  saturatingSucc (counter n) = counter (n + 1)
  := by
  apply UInt32.toNat_inj.mp
  rw [saturatingSucc]
  split
  · next hfull =>
    have hn := congrArg UInt32.toNat hfull
    rw [toNat_counter] at hn ⊢
    rw [toNat_counter]
    have htop : (0xFFFFFFFF : UInt32).toNat = 0xFFFFFFFF := rfl
    omega
  · next hroom =>
    have hn : (counter n).toNat ≠ 0xFFFFFFFF := by
      intro h
      exact hroom (UInt32.toNat_inj.mp h)
    rw [UInt32.toNat_add]
    rw [toNat_counter] at hn ⊢
    rw [toNat_counter]
    have hone : (1 : UInt32).toNat = 1 := rfl
    omega

theorem counter_eq_one_iff (n : Nat) :
  counter n = 1 ↔ n = 1
  := by
  rw [← UInt32.toNat_inj, toNat_counter]
  have hone : (1 : UInt32).toNat = 1 := rfl
  omega

/-- The report of a violation that the counter of its name has counted. -/
theorem violationDetails_eq (id : UInt32) (n : Nat) (details : Bytes) :
  (match violationDetails (counter (n + 1)) details with
    | some details => [⟨0, .assertViolation id (counter (n + 1)) details, .critical⟩]
    | none => []) = violation id n details
  := by
  have hlimit : assertRepeatLimit.toNat = 16 := rfl
  have hnext : (assertRepeatLimit + 1).toNat = 17 := rfl
  have hcount := toNat_counter (n + 1)
  rw [violation, violationDetails]
  by_cases hfew : n < 16
  · have hle : ¬ counter (n + 1) > assertRepeatLimit := by
      rw [gt_iff_lt, UInt32.lt_iff_toNat_lt, hlimit, hcount]
      omega
    have hsame : counter (n + 1) = UInt32.ofNat (n + 1) := by
      rw [counter, Nat.min_eq_left (by omega)]
    rw [if_neg hle, if_pos hfew, hsame]
  · have hgt : counter (n + 1) > assertRepeatLimit := by
      rw [gt_iff_lt, UInt32.lt_iff_toNat_lt, hlimit, hcount]
      omega
    rw [if_pos hgt, if_neg hfew]
    by_cases hlast : n = 16
    · subst hlast
      rfl
    · have hne : counter (n + 1) ≠ assertRepeatLimit + 1 := by
        rw [ne_eq, ← UInt32.toNat_inj, hnext, hcount]
        omega
      rw [if_pos hne, if_neg hlast]

/-! ### The intern table -/

/-- The entry of a name behind a history. -/
def entryOf (taken : List Bytes) (before : List Point) (name : Bytes) : InternEntry :=
  { name
    id := nameId taken name
    reachableHits := counter (hits before name)
    assertPasses := counter (asserts true before name)
    assertFailures := counter (asserts false before name) }

/-- The intern table that has taken some names, with the counters of a history. -/
def table (taken : List Bytes) (before : List Point) : InternTable :=
  { entries := taken.map (entryOf taken before)
    nextId := UInt32.ofNat (taken.length + 1) }

section Tables

variable {before : List Point} {taken : List Bytes} {name : Bytes}

/-- An update of the entry of a name. -/
theorem updateEntry_map {g : Bytes → InternEntry} (f : InternEntry → InternEntry)
    (hmem : name ∈ taken) (hnodup : taken.Nodup)
    (hinj : ∀ x ∈ taken, (g x).id = (g name).id → x = name) :
  InternTable.updateEntry f (g name).id (taken.map g)
    = some (taken.map fun x => if x = name then f (g x) else g x, f (g name))
  := by
  induction taken with
  | nil => cases hmem
  | cons y ys ih =>
      rw [List.map_cons, InternTable.updateEntry]
      by_cases hy : y = name
      · subst hy
        have hrest : ys.map (fun x => if x = y then f (g x) else g x) = ys.map g := by
          apply List.map_congr_left
          intro x hx
          rw [if_neg]
          rintro rfl
          exact (List.nodup_cons.mp hnodup).1 hx
        rw [if_pos rfl, List.map_cons, if_pos rfl, hrest]
      · have hne : (g y).id ≠ (g name).id := by
          intro heq
          exact hy (hinj y List.mem_cons_self heq)
        rw [if_neg hne, ih ((List.mem_cons.mp hmem).resolve_left (Ne.symm hy))
          (List.nodup_cons.mp hnodup).2 (fun x hx => hinj x (List.mem_cons_of_mem y hx)),
          Option.map_some, List.map_cons, if_neg hy]

/-- A point that counts nothing for the names that were taken. -/
theorem table_congr {p : Point}
    (hhits : ∀ x ∈ taken, hits (before ++ [p]) x = hits before x)
    (hasserts : ∀ cond, ∀ x ∈ taken, asserts cond (before ++ [p]) x = asserts cond before x) :
  table taken (before ++ [p]) = table taken before
  := by
  rw [table, table, InternTable.mk.injEq]
  refine ⟨?_, rfl⟩
  apply List.map_congr_left
  intro x hx
  rw [entryOf, entryOf, hhits x hx, hasserts true x hx, hasserts false x hx]

theorem hits_concat (p : Point) (x : Bytes) :
  hits (before ++ [p]) x = hits before x + if p.hit = some x then 1 else 0
  := by
  rw [hits, hits, List.filterMap_append, List.count_append]
  cases hhit : p.hit with
  | none => simp [hhit]
  | some y => simp [hhit, List.count_singleton]

theorem asserts_concat (cond : Bool) (p : Point) (x : Bytes) :
  asserts cond (before ++ [p]) x
    = asserts cond before x + if p.asserted cond = some x then 1 else 0
  := by
  rw [asserts, asserts, List.filterMap_append, List.count_append]
  cases hasserted : p.asserted cond with
  | none => simp [hasserted]
  | some y => simp [hasserted, List.count_singleton]

theorem beaconHits_concat (p : Point) (slot : Nat) :
  beaconHits (before ++ [p]) slot
    = beaconHits before slot + if p.beacon = some slot then 1 else 0
  := by
  rw [beaconHits, beaconHits, List.filterMap_append, List.count_append]
  cases hbeacon : p.beacon with
  | none => simp [hbeacon]
  | some y => simp [hbeacon, List.count_singleton]

theorem table_silent {p : Point} (hhit : p.hit = none) (hasserted : ∀ cond, p.asserted cond = none) :
  table taken (before ++ [p]) = table taken before
  := by
  apply table_congr
  · intro x _
    rw [hits_concat, hhit, if_neg (by simp), Nat.add_zero]
  · intro cond x _
    rw [asserts_concat, hasserted, if_neg (by simp), Nat.add_zero]

theorem name_of_hit {p : Point} {x : Bytes} (h : p.hit = some x) :
  p.name = some x
  := by
  cases p with
  | expectReachable name => exact h
  | _ => cases h

theorem name_of_asserted {cond : Bool} {p : Point} {x : Bytes} (h : p.asserted cond = some x) :
  p.name = some x
  := by
  cases p with
  | assertAlways c name details =>
      rw [Point.asserted] at h
      split at h
      · exact h
      · cases h
  | _ => cases h

/-- A name that was not used counts nothing. -/
theorem count_eq_zero_of_unused {f : Point → Option Bytes}
    (hf : ∀ {p x}, f p = some x → p.name = some x) (h : name ∉ before.filterMap Point.name) :
  (before.filterMap f).count name = 0
  := by
  apply List.count_eq_zero.mpr
  intro hmem
  obtain ⟨p, hp, hname⟩ := List.mem_filterMap.mp hmem
  exact h (List.mem_filterMap.mpr ⟨p, hp, hf hname⟩)

theorem valid_of_mem_names (h : name ∈ names before) :
  validName name = true
  := by
  have hall : ∀ x ∈ names before, validName x = true := by
    apply names_induct (P := fun names => ∀ x ∈ names, validName x = true)
    · simp
    · intro names name h hvalid _ _ x hx
      rcases List.mem_append.mp hx with hx | hx
      · exact h x hx
      · rw [List.mem_singleton.mp hx]
        exact hvalid
  exact hall name h

theorem find_table (h : name ∈ taken) :
  ((table taken before).entries.find? fun e => e.name = name) = some (entryOf taken before name)
  := by
  rw [table, List.find?_map]
  cases hfind : taken.find? ((fun e : InternEntry => decide (e.name = name)) ∘ entryOf taken before)
    with
  | some x =>
      have hx := List.find?_some hfind
      rw [Function.comp_apply, decide_eq_true_eq] at hx
      rw [Option.map_some, ← hx]
      rfl
  | none =>
      have hno := List.find?_eq_none.mp hfind name h
      rw [Function.comp_apply, decide_eq_true_eq] at hno
      exact absurd rfl hno

theorem find_table_none (h : name ∉ taken) :
  ((table taken before).entries.find? fun e => e.name = name) = none
  := by
  apply List.find?_eq_none.mpr
  intro e he heq
  obtain ⟨x, hx, rfl⟩ := List.mem_map.mp he
  rw [decide_eq_true_eq] at heq
  exact h (heq ▸ hx)

/-- The table is full when it has taken as many names as there are ids for. -/
theorem full_table_iff (hlen : taken.length ≤ maxNames) :
  (table taken before).nextId = 0xFFFFFFFF ↔ ¬ taken.length < maxNames
  := by
  have htop : (0xFFFFFFFF : UInt32).toNat = 0xFFFFFFFF := rfl
  rw [table, ← UInt32.toNat_inj, UInt32.toNat_ofNat', htop]
  rw [maxNames] at hlen ⊢
  omega

/-- A further name without a history gives the table one more entry. -/
theorem table_concat (hnew : name ∉ taken) (hunused : name ∉ before.filterMap Point.name) :
  table (taken ++ [name]) before
    = { entries := (table taken before).entries ++
          [⟨name, UInt32.ofNat (taken.length + 1), 0, 0, 0⟩]
        nextId := (table taken before).nextId + 1 }
  := by
  have hold : taken.map (entryOf (taken ++ [name]) before) = taken.map (entryOf taken before) := by
    apply List.map_congr_left
    intro x hx
    rw [entryOf, entryOf, nameId_append hx]
  have hzero : counter 0 = 0 := rfl
  rw [table, table, InternTable.mk.injEq]
  constructor
  · rw [List.map_append, hold, List.map_singleton]
    dsimp only
    rw [entryOf, nameId_fresh hnew, hits, asserts, asserts,
      count_eq_zero_of_unused name_of_hit hunused, count_eq_zero_of_unused name_of_asserted hunused,
      count_eq_zero_of_unused name_of_asserted hunused, hzero]
  · rw [List.length_append, List.length_singleton, UInt32.ofNat_add (taken.length + 1) 1]
    rfl

variable (before name) in
/-- What the intern table of a history makes of a name. -/
theorem intern_table :
  let taken := addName (names before) name
  (table (names before) before).intern name
    = (table taken before,
        if name ∈ taken then .ok { id := nameId taken name, isNew := decide (name ∉ names before) }
        else .error (if validName name then .tableFull else .nameTooLong))
  := by
  have hlen := length_names_le before
  dsimp only
  rw [InternTable.intern]
  by_cases hvalid : validName name = true
  · rw [if_neg (not_not.mpr hvalid)]
    by_cases hmem : name ∈ names before
    · rw [find_table hmem, addName_of_mem hmem, if_pos hmem]
      simp [entryOf, hmem]
    · rw [find_table_none hmem]
      dsimp only
      by_cases hroom : (names before).length < maxNames
      · have hunused : name ∉ before.filterMap Point.name := by
          intro huse
          exact hmem (mem_names_of_used huse hvalid hroom)
        rw [if_neg (fun h => (full_table_iff hlen).mp h hroom), addName_new hvalid hmem hroom,
          if_pos (List.mem_append_right _ (List.mem_singleton_self name)),
          table_concat hmem hunused, nameId_fresh hmem]
        simp [table, hmem]
      · rw [if_pos ((full_table_iff hlen).mpr hroom), addName_full hroom, if_neg hmem, if_pos hvalid]
  · have hmem : name ∉ names before := fun h => hvalid (valid_of_mem_names h)
    rw [if_pos hvalid, addName_invalid hvalid, if_neg hmem, if_neg hvalid]

/-- A name that was taken is counted in its own entry. -/
theorem map_entryOf {f : InternEntry → InternEntry} {p : Point}
    (hself : f (entryOf taken before name) = entryOf taken (before ++ [p]) name)
    (hname : p.name = some name) :
  (taken.map fun x => if x = name then f (entryOf taken before x) else entryOf taken before x)
    = taken.map (entryOf taken (before ++ [p]))
  := by
  apply List.map_congr_left
  intro x _
  by_cases hx : x = name
  · rw [if_pos hx, hx]
    exact hself
  · have hne : p.name ≠ some x := by
      rw [hname]
      exact fun h => hx (Option.some.inj h).symm
    rw [if_neg hx, entryOf, entryOf, hits_concat, asserts_concat, asserts_concat,
      if_neg (fun h => hne (name_of_hit h)), if_neg (fun h => hne (name_of_asserted h)),
      if_neg (fun h => hne (name_of_asserted h))]
    rfl

variable (before) in
theorem updateEntry_table (f : InternEntry → InternEntry) {p : Point} (hmem : name ∈ taken)
    (hnodup : taken.Nodup) (hlen : taken.length ≤ maxNames) (hname : p.name = some name)
    (hself : f (entryOf taken before name) = entryOf taken (before ++ [p]) name) :
  InternTable.updateEntry f (nameId taken name) (table taken before).entries
    = some ((table taken (before ++ [p])).entries, entryOf taken (before ++ [p]) name)
  := by
  have hupdate := updateEntry_map (g := entryOf taken before) f hmem hnodup
    (fun x hx heq => nameId_inj hx hmem hlen heq)
  rw [map_entryOf hself hname, hself] at hupdate
  exact hupdate

variable (before) in
/-- A hit of a name that was taken. -/
theorem recordReachable_table (hmem : name ∈ taken) (hnodup : taken.Nodup)
    (hlen : taken.length ≤ maxNames) :
  (table taken before).recordReachable (nameId taken name)
    = (table taken (before ++ [.expectReachable name]), .ok (counter (hits before name + 1)))
  := by
  have hupdate := updateEntry_table before (p := .expectReachable name)
    (fun e => { e with reachableHits := saturatingSucc e.reachableHits }) hmem hnodup hlen rfl
    (by simp [entryOf, saturatingSucc_counter, hits_concat, asserts_concat, Point.hit,
      Point.asserted])
  simp only [InternTable.recordReachable, hupdate]
  simp [table, entryOf, hits_concat, Point.hit]

variable (before) in
/-- An assertion of a name that was taken. -/
theorem recordAssert_table (cond : Bool) (details : Bytes) (hmem : name ∈ taken)
    (hnodup : taken.Nodup) (hlen : taken.length ≤ maxNames) :
  let after := before ++ [.assertAlways cond name details]
  (table taken before).recordAssert (nameId taken name) cond
    = (table taken after, .ok ⟨counter (asserts true after name), counter (asserts false after name)⟩)
  := by
  have hupdate := updateEntry_table before (p := .assertAlways cond name details)
    (fun e => if cond then { e with assertPasses := saturatingSucc e.assertPasses }
      else { e with assertFailures := saturatingSucc e.assertFailures }) hmem hnodup hlen rfl
    (by cases cond <;> simp [entryOf, saturatingSucc_counter, hits_concat, asserts_concat, Point.hit,
      Point.asserted])
  simp only [InternTable.recordAssert, hupdate]
  rfl

end Tables

/-! ### The state of the SDK behind a history -/

/-- The tables of the SDK have the names and the counters of a history. -/
structure Tracks (before : List Point) (s : SdkState) : Prop where
  intern : s.intern = table (names before) before
  counts : ∀ slot, s.beacons.counts slot = counter (beaconHits before slot)
  seen : ∀ slot, s.beacons.seen slot = decide (beaconHits before slot ≠ 0)

theorem tracks_new :
  Tracks [] .new
  := by
  refine ⟨rfl, ?_, ?_⟩
  · intro slot
    rfl
  · intro slot
    rfl

namespace SdkState

section Steps

variable {s : SdkState} {before : List Point} {taken : List Bytes} {name details : Bytes}

/-- A name behind a history. -/
theorem internName_eq (h : s.intern = table (names before) before) (name : Bytes)
    (flags : UInt8) :
  let taken := addName (names before) name
  s.internName name flags
    = ({ s with intern := table taken before },
        if name ∈ taken ∧ name ∉ names before then
          [⟨flags, .nameIntern (nameId taken name) name, .critical⟩]
        else [],
        if name ∈ taken then some (nameId taken name) else none)
  := by
  have hintern := intern_table before name
  dsimp only at hintern ⊢
  rw [internName, h, hintern]
  by_cases hmem : name ∈ addName (names before) name
  · rw [if_pos hmem, if_pos hmem]
    simp [hmem]
  · simp [hmem]

/-- An assertion that holds, behind a history. -/
theorem assertPassed_eq (h : s.intern = table taken before) (hmem : name ∈ taken)
    (hnodup : taken.Nodup) (hlen : taken.length ≤ maxNames) (details : Bytes) :
  let after := before ++ [.assertAlways true name details]
  let total := saturatingSucc64 s.stats.assertsPassedTotal
  s.assertPassed (nameId taken name)
    = { s with
        intern := table taken after
        stats := { s.stats with assertsPassedTotal := total }
        statsRegion := { s.statsRegion with assertsPassedTotal := total }.recordAssert
          (nameId taken name) (counter (asserts true after name))
          (counter (asserts false after name)) }
  := by
  have hrecord := recordAssert_table before true details hmem hnodup hlen
  dsimp only at hrecord ⊢
  simp only [assertPassed, h, hrecord]

/-- An assertion that fails, behind a history. -/
theorem assertFailed_eq (h : s.intern = table taken before) (hmem : name ∈ taken)
    (hnodup : taken.Nodup) (hlen : taken.length ≤ maxNames) (details : Bytes) :
  let after := before ++ [.assertAlways false name details]
  let total := saturatingSucc64 s.stats.assertsFailedTotal
  s.assertFailed (nameId taken name) details
    = ({ s with
          intern := table taken after
          stats := { s.stats with assertsFailedTotal := total }
          statsRegion := { s.statsRegion with assertsFailedTotal := total }.recordAssert
            (nameId taken name) (counter (asserts true after name))
            (counter (asserts false after name)) },
        violation (nameId taken name) (asserts false before name) details)
  := by
  have hrecord := recordAssert_table before false details hmem hnodup hlen
  dsimp only at hrecord ⊢
  simp only [assertFailed, h, hrecord, Prod.mk.injEq, true_and]
  rw [asserts_concat, Point.asserted, if_pos rfl, if_pos rfl]
  exact violationDetails_eq _ _ _

/-- A hit, behind a history. -/
theorem reached_eq (h : s.intern = table taken before) (hmem : name ∈ taken)
    (hnodup : taken.Nodup) (hlen : taken.length ≤ maxNames) :
  let region := s.statsRegion.recordReachable (nameId taken name) (counter (hits before name + 1))
  let total := saturatingSucc64 s.stats.reachableNames
  s.reached (nameId taken name)
    = if hits before name = 0 then
        ({ s with
            intern := table taken (before ++ [.expectReachable name])
            stats := { s.stats with reachableNames := total }
            statsRegion := { region with reachableNames := total } },
          [⟨0, .reachable (nameId taken name), .critical⟩])
      else
        ({ s with
            intern := table taken (before ++ [.expectReachable name])
            statsRegion := region }, [])
  := by
  have hrecord := recordReachable_table before hmem hnodup hlen
  dsimp only at hrecord ⊢
  simp only [reached, h, hrecord, counter_eq_one_iff, Nat.add_eq_right]

/-- A name that is taken behind a history. -/
theorem internName_taken {p : Point} (h : s.intern = table (names before) before)
    (hname : p.name = some name) (flags : UInt8) (hflags : p.flags = flags)
    (hmem : name ∈ names (before ++ [p])) :
  s.internName name flags
    = ({ s with intern := table (names (before ++ [p])) before }, announced before p,
        some (nameId (names (before ++ [p])) name))
  := by
  rw [internName_eq h name flags, announced, hname, hflags, ← names_concat_of_some hname,
    if_pos hmem]

/-- A name that is not taken behind a history. -/
theorem internName_refused {p : Point} (h : s.intern = table (names before) before)
    (hname : p.name = some name) (hmem : name ∉ names (before ++ [p])) (flags : UInt8) :
  s.internName name flags = (s, [], none)
  := by
  have hsame := names_refused hname hmem
  rw [internName_eq h name flags, ← names_concat_of_some hname, if_neg hmem,
    if_neg (fun h => hmem h.1), hsame, ← h]

end Steps

end SdkState

section Steps

variable {s s' : SdkState} {before : List Point} {p : Point} {name : Bytes}

theorem announced_refused (hname : p.name = some name) (hmem : name ∉ names (before ++ [p])) :
  announced before p = []
  := by
  rw [announced, hname]
  exact if_neg fun h => hmem h.1

/-- A point that hits no beacon. -/
theorem Tracks.named (h : Tracks before s) (hbeacon : p.beacon = none)
    (hintern : s'.intern = table (names (before ++ [p])) (before ++ [p]))
    (hbeacons : s'.beacons = s.beacons) :
  Tracks (before ++ [p]) s'
  := by
  refine ⟨hintern, ?_, ?_⟩
  · intro slot
    rw [hbeacons, h.counts, beaconHits_concat, if_neg (by simp [hbeacon]), Nat.add_zero]
  · intro slot
    rw [hbeacons, h.seen, beaconHits_concat, if_neg (by simp [hbeacon]), Nat.add_zero]

/-- A point whose name is not taken. -/
theorem Tracks.refused (h : Tracks before s) (hbeacon : p.beacon = none)
    (hname : p.name = some name) (hmem : name ∉ names (before ++ [p])) (hintern : s'.intern = s.intern)
    (hbeacons : s'.beacons = s.beacons) :
  Tracks (before ++ [p]) s'
  := by
  apply h.named hbeacon _ hbeacons
  rw [hintern, h.intern]
  have hsame := names_refused hname hmem
  rw [hsame] at hmem ⊢
  symm
  have hne : ∀ x ∈ names before, p.name ≠ some x := by
    intro x hx heq
    rw [hname] at heq
    exact hmem (Option.some.inj heq ▸ hx)
  apply table_congr
  · intro x hx
    rw [hits_concat, if_neg (fun h => hne x hx (name_of_hit h)), Nat.add_zero]
  · intro cond x hx
    rw [asserts_concat, if_neg (fun h => hne x hx (name_of_asserted h)), Nat.add_zero]

/-- A point that counts nothing besides its name. -/
theorem Tracks.silent (h : Tracks before s) (hbeacon : p.beacon = none) (hhit : p.hit = none)
    (hasserted : ∀ cond, p.asserted cond = none)
    (hintern : s'.intern = table (names (before ++ [p])) before) (hbeacons : s'.beacons = s.beacons) :
  Tracks (before ++ [p]) s'
  := by
  apply h.named hbeacon _ hbeacons
  rw [hintern]
  exact (table_silent hhit hasserted).symm

theorem asideQueries_append (es es' : List Emission) :
  asideQueries (es ++ es') = asideQueries es ++ asideQueries es'
  := by
  simp [asideQueries]

theorem asideQueries_asked (s : SdkState) (before : List Point) (p : Point) :
  asideQueries (asked s before p) = []
  := by
  cases p with
  | injectPoint name =>
      rw [asked]
      split <;> rfl
  | _ => rfl

theorem asideQueries_announced (before : List Point) (p : Point) :
  asideQueries (announced before p) = announced before p
  := by
  rw [announced]
  split
  · split <;> rfl
  · rfl

theorem asideQueries_reported (before : List Point) (p : Point) :
  asideQueries (reported before p) = reported before p
  := by
  cases p with
  | assertAlways cond name details =>
      rw [reported]
      split
      · rw [violation]
        split
        · rfl
        · split <;> rfl
      · rfl
  | expectReachable name =>
      rw [reported]
      split <;> rfl
  | declareReachable name => rfl
  | coverageBeacon id =>
      rw [reported]
      split <;> rfl
  | injectPoint name => rfl

/-- **One point.**  A point keeps the tables in step with the history, and hands to ring W what the
history says. -/
theorem Tracks.point (h : Tracks before s) (p : Point) :
  Tracks (before ++ [p]) (s.point p).1 ∧
    (s.point p).2 = announced before p ++ (reported before p ++ asked s before p)
  := by
  have hnodup := nodup_names (before ++ [p])
  have hlen := length_names_le (before ++ [p])
  cases p with
  | assertAlways cond name details =>
      rw [SdkState.point, SdkState.assertAlways, asked, List.append_nil]
      by_cases hmem : name ∈ names (before ++ [.assertAlways cond name details])
      · rw [SdkState.internName_taken h.intern rfl 0 rfl hmem]
        cases cond with
        | true =>
            dsimp only
            rw [if_pos rfl, SdkState.assertPassed_eq rfl hmem hnodup hlen details, reported,
              if_neg (by simp)]
            exact ⟨h.named rfl rfl rfl, (List.append_nil _).symm⟩
        | false =>
            dsimp only
            rw [if_neg (by simp), SdkState.assertFailed_eq rfl hmem hnodup hlen details, reported,
              if_pos ⟨hmem, rfl⟩]
            exact ⟨h.named rfl rfl rfl, rfl⟩
      · rw [SdkState.internName_refused h.intern rfl hmem, announced_refused rfl hmem]
        refine ⟨h.refused rfl rfl hmem rfl rfl, ?_⟩
        rw [reported, if_neg (fun h => hmem h.1)]
        rfl
  | expectReachable name =>
      rw [SdkState.point, SdkState.expectReachable, asked, List.append_nil, reported]
      by_cases hmem : name ∈ names (before ++ [.expectReachable name])
      · rw [SdkState.internName_taken h.intern rfl 0 rfl hmem]
        dsimp only
        rw [SdkState.reached_eq rfl hmem hnodup hlen]
        by_cases hfirst : hits before name = 0
        · rw [if_pos hfirst, if_pos ⟨hmem, hfirst⟩]
          exact ⟨h.named rfl rfl rfl, rfl⟩
        · rw [if_neg hfirst, if_neg (fun h => hfirst h.2)]
          exact ⟨h.named rfl rfl rfl, rfl⟩
      · rw [SdkState.internName_refused h.intern rfl hmem, announced_refused rfl hmem,
          if_neg (fun h => hmem h.1)]
        exact ⟨h.refused rfl rfl hmem rfl rfl, rfl⟩
  | declareReachable name =>
      rw [SdkState.point, SdkState.declareReachable, asked, reported, List.append_nil,
        List.append_nil]
      by_cases hmem : name ∈ names (before ++ [.declareReachable name])
      · rw [SdkState.internName_taken h.intern rfl flagReachableDecl rfl hmem]
        exact ⟨h.silent rfl rfl (fun _ => rfl) rfl rfl, rfl⟩
      · rw [SdkState.internName_refused h.intern rfl hmem, announced_refused rfl hmem]
        exact ⟨h.refused rfl rfl hmem rfl rfl, rfl⟩
  | coverageBeacon id =>
      rw [SdkState.point, SdkState.coverageBeacon, asked, reported, List.append_nil]
      constructor
      · have hsame : names (before ++ [.coverageBeacon id]) = names before := names_concat_of_none rfl
        refine ⟨?_, ?_, ?_⟩
        · dsimp only
          rw [hsame, h.intern]
          exact (table_silent rfl fun _ => rfl).symm
        · intro slot
          rw [beaconHits_concat, Point.beacon]
          dsimp only [BeaconCounters.hit]
          by_cases hslot : slot = beaconSlot id
          · rw [hslot, Function.update_self, h.counts, saturatingSucc_counter, if_pos rfl]
          · rw [Function.update_of_ne hslot, h.counts,
              if_neg (fun heq => hslot (Option.some.inj heq).symm), Nat.add_zero]
        · intro slot
          rw [beaconHits_concat, Point.beacon]
          dsimp only [BeaconCounters.hit]
          by_cases hslot : slot = beaconSlot id
          · rw [hslot, Function.update_self, if_pos rfl]
            simp
          · rw [Function.update_of_ne hslot, h.seen,
              if_neg (fun heq => hslot (Option.some.inj heq).symm), Nat.add_zero]
      · dsimp only [BeaconCounters.hit]
        rw [h.seen]
        by_cases hfirst : beaconHits before (beaconSlot id) = 0
        · rw [if_pos hfirst, if_pos (by simp [hfirst])]
          rfl
        · rw [if_neg hfirst, if_neg (by simp [hfirst])]
          rfl
  | injectPoint name =>
      rw [SdkState.point, reported, asked, List.nil_append]
      have hcounted : s.countInject.intern = table (names before) before := h.intern
      by_cases hmem : name ∈ names (before ++ [.injectPoint name])
      · rw [SdkState.internName_taken hcounted rfl 0 rfl hmem, if_pos hmem]
        exact ⟨h.silent rfl rfl (fun _ => rfl) rfl rfl, rfl⟩
      · rw [SdkState.internName_refused hcounted rfl hmem, announced_refused rfl hmem, if_neg hmem]
        exact ⟨h.refused rfl rfl hmem rfl rfl, rfl⟩

/-- **Runs of points.** -/
theorem Tracks.points (h : Tracks before s) (ps : List Point) :
  Tracks (before ++ ps) (s.points ps).1 ∧ asideQueries (s.points ps).2 = expectedAll before ps
  := by
  induction ps generalizing before s with
  | nil =>
      rw [List.append_nil]
      exact ⟨h, rfl⟩
  | cons p ps ih =>
      obtain ⟨hnext, hout⟩ := h.point p
      obtain ⟨hend, hrest⟩ := ih hnext
      rw [List.append_assoc, List.singleton_append] at hend
      refine ⟨hend, ?_⟩
      rw [SdkState.points, asideQueries_append, hout, hrest, expectedAll, asideQueries_append,
        asideQueries_append, asideQueries_announced, asideQueries_reported, asideQueries_asked,
        List.append_nil, expected]

end Steps

end Sdk
