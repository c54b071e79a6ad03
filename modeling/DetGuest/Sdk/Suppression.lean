import DetGuest.Sdk.Mirror

/-!
# Which events the points of a history emit

The SDK reports an event when it happens for the first time, and the violations of an assertion up
to a limit.  Per name and per beacon this says how often each event is emitted, and in which order.
-/

namespace Sdk

open Wire

/-! ### What an event is about -/

/-- The name that an event announces, with its id. -/
def internedName (e : Emission) : Option (UInt32 × Bytes) :=
  match e.ev with
  | .nameIntern id name => some (id, name)
  | _ => none

/-- The id of the name that an event reports as reached. -/
def reachedId (e : Emission) : Option UInt32 :=
  match e.ev with
  | .reachable id => some id
  | _ => none

/-- The beacon that an event reports. -/
def beaconId (e : Emission) : Option UInt32 :=
  match e.ev with
  | .beacon id => some id
  | _ => none

/-- The count and the details of a violation of a name. -/
def violationOf (id : UInt32) (e : Emission) : Option (UInt32 × Bytes) :=
  match e.ev with
  | .assertViolation nameId count details => if nameId = id then some (count, details) else none
  | _ => none

/-- The id of the name that an event is about. -/
def usedId (e : Emission) : Option UInt32 :=
  match e.ev with
  | .assertViolation id _ _ => some id
  | .reachable id => some id
  | .injectQuery _ id => some id
  | _ => none

/-- The ids of the names that events announce. -/
def internedIds (es : List Emission) : List UInt32 := (es.filterMap internedName).map Prod.fst

/-- Every event is about a name that was announced before. -/
def Announced (known : List UInt32) : List Emission → Prop
  | [] => True
  | e :: es => (∀ id, usedId e = some id → id ∈ known) ∧ Announced (known ++ internedIds [e]) es

theorem internedIds_append (es es' : List Emission) :
  internedIds (es ++ es') = internedIds es ++ internedIds es'
  := by
  rw [internedIds, List.filterMap_append, List.map_append, internedIds, internedIds]

theorem announced_append {known : List UInt32} {es es' : List Emission} (h : Announced known es)
    (h' : Announced (known ++ internedIds es) es') :
  Announced known (es ++ es')
  := by
  induction es generalizing known with
  | nil =>
      have hnone : known ++ internedIds [] = known := List.append_nil _
      rw [hnone] at h'
      exact h'
  | cons e es ih =>
      obtain ⟨hused, hrest⟩ := h
      refine ⟨hused, ih hrest ?_⟩
      rw [List.append_assoc, ← internedIds_append]
      exact h'

/-! ### Violations -/

/-- The details of a failed assertion of a name. -/
def Point.failure (name : Bytes) : Point → Option Bytes
  | .assertAlways cond n details => if cond = false ∧ n = name then some details else none
  | .expectReachable _ => none
  | .declareReachable _ => none
  | .coverageBeacon _ => none
  | .injectPoint _ => none

/-- The details of the failed assertions of a name. -/
def failures (before : List Point) (name : Bytes) : List Bytes :=
  before.filterMap (Point.failure name)

/-- The reports of the violations with some details: the first 16 with the details, and then one
summary. -/
def reports (details : List Bytes) : List (UInt32 × Bytes) :=
  ((details.take 16).mapIdx fun i details => (UInt32.ofNat (i + 1), details))
    ++ if 16 < details.length then [(17, suppressedDetails)] else []

/-- The report of the violation behind `n` others. -/
def reportOf (n : Nat) (details : Bytes) : List (UInt32 × Bytes) :=
  if n < 16 then [(UInt32.ofNat (n + 1), details)]
  else if n = 16 then [(17, suppressedDetails)]
  else []

theorem violation_eq_map (id : UInt32) (n : Nat) (details : Bytes) :
  violation id n details
    = (reportOf n details).map fun r => ⟨0, .assertViolation id r.1 r.2, .critical⟩
  := by
  rw [violation, reportOf]
  split
  · rfl
  · split <;> rfl

theorem reports_concat (ds : List Bytes) (d : Bytes) :
  reports (ds ++ [d]) = reports ds ++ reportOf ds.length d
  := by
  rw [reports, reports, reportOf, List.length_append, List.length_singleton]
  by_cases hfew : ds.length < 16
  · rw [List.take_of_length_le (by simp; omega), List.take_of_length_le (by omega), if_neg (by omega),
      if_neg (by omega), if_pos hfew, List.mapIdx_append]
    simp
  · rw [if_neg hfew, List.take_append_of_le_length (by omega)]
    by_cases hlast : ds.length = 16
    · rw [if_pos (by omega), if_neg (by omega), if_pos hlast, List.append_nil]
    · rw [if_pos (by omega), if_pos (by omega), if_neg hlast, List.append_nil]

/-- The reports of violations are counted one by one. -/
theorem reports_counts (ds : List Bytes) :
  (reports ds).map Prod.fst = (List.range (min ds.length 17)).map fun i => UInt32.ofNat (i + 1)
  := by
  induction ds using List.reverseRecOn with
  | nil => rfl
  | append_singleton ds d ih =>
      rw [reports_concat, List.map_append, ih, reportOf, List.length_append, List.length_singleton]
      by_cases hfew : ds.length < 16
      · rw [if_pos hfew, Nat.min_eq_left (by omega), Nat.min_eq_left (by omega), List.range_succ,
          List.map_append]
        rfl
      · rw [if_neg hfew]
        by_cases hlast : ds.length = 16
        · rw [if_pos hlast, hlast]
          rfl
        · rw [if_neg hlast, Nat.min_eq_right (by omega), Nat.min_eq_right (by omega)]
          exact List.append_nil _

/-- There is one report for each count, and no more than there are violations. -/
theorem count_of_report {ds : List Bytes} {n : UInt32} {d : Bytes} (h : (n, d) ∈ reports ds) :
  n.toNat ≤ min ds.length 17 ∧ ∀ d', (n, d') ∈ reports ds → d' = d
  := by
  have hcounts := reports_counts ds
  constructor
  · have hmem := List.mem_map_of_mem (f := Prod.fst) h
    rw [hcounts] at hmem
    obtain ⟨i, hi, heq⟩ := List.mem_map.mp hmem
    rw [List.mem_range] at hi
    change _ = n at heq
    rw [← heq, UInt32.toNat_ofNat']
    omega
  · intro d' h'
    have hnodup : ((reports ds).map Prod.fst).Nodup := by
      rw [hcounts]
      apply List.Nodup.map_on _ List.nodup_range
      intro i hi j hj heq
      rw [List.mem_range] at hi hj
      have hnat := congrArg UInt32.toNat heq
      rw [UInt32.toNat_ofNat', UInt32.toNat_ofNat'] at hnat
      omega
    exact (Prod.mk.inj (List.inj_on_of_nodup_map hnodup h' h rfl)).2

/-- The summary is reported behind 16 violations. -/
theorem summary_reported {ds : List Bytes} (h : 16 < ds.length) :
  (17, suppressedDetails) ∈ reports ds
  := by
  rw [reports, if_pos h]
  exact List.mem_append_right _ (List.mem_singleton_self _)

section Points

variable {before : List Point} {p : Point} {name : Bytes} {s : SdkState}

/-- The assertions of a name that failed are counted. -/
theorem length_failures (before : List Point) (name : Bytes) :
  (failures before name).length = asserts false before name
  := by
  induction before using List.reverseRecOn with
  | nil => rfl
  | append_singleton before p ih =>
      rw [asserts_concat, failures, List.filterMap_append, List.length_append, ← ih, failures]
      congr 1
      cases p with
      | assertAlways cond n details =>
          cases cond with
          | true => simp [Point.failure, Point.asserted]
          | false =>
              by_cases hn : n = name
              · simp [Point.failure, Point.asserted, hn]
              · simp [Point.failure, Point.asserted, hn]
      | _ => rfl

/-! ### The names that are taken -/

/-- **The names that the intern table takes.**  They are the different valid names in the order of
their first use, as many as there are ids for. -/
theorem names_eq (before : List Point) :
  names before = ((before.filterMap Point.name).filter validName).eraseDups.take maxNames
  := by
  have hall : ∀ uses : List Bytes,
      uses.foldl addName [] = (uses.filter validName).eraseDups.take maxNames := by
    intro uses
    induction uses using List.reverseRecOn with
    | nil => rfl
    | append_singleton uses use ih =>
        rw [List.foldl_append, ih, List.filter_append]
        change addName _ use = _
        by_cases hvalid : validName use = true
        · have hkeep : [use].filter validName = [use] := by simp [hvalid]
          rw [hkeep, eraseDups_concat]
          by_cases hold : use ∈ uses.filter validName
          · rw [if_pos hold]
            by_cases hmem : use ∈ (uses.filter validName).eraseDups.take maxNames
            · exact addName_of_mem hmem
            · apply addName_full
              intro hroom
              rw [List.length_take] at hroom
              rw [List.take_of_length_le (by omega)] at hmem
              exact hmem (List.mem_eraseDups.mpr hold)
          · rw [if_neg hold]
            by_cases hroom : (uses.filter validName).eraseDups.length < maxNames
            · have hlater : (((uses.filter validName).eraseDups) ++ [use]).length ≤ maxNames := by
                rw [List.length_append, List.length_singleton]
                omega
              rw [List.take_of_length_le (Nat.le_of_lt hroom), List.take_of_length_le hlater]
              exact addName_new hvalid (fun h => hold (List.mem_eraseDups.mp h)) hroom
            · rw [List.take_append_of_le_length (by omega)]
              apply addName_full
              rw [List.length_take]
              omega
        · have hdrop : [use].filter validName = [] := by simp [hvalid]
          rw [hdrop, List.append_nil]
          exact addName_invalid hvalid
  exact hall _

/-! ### One point -/

theorem announced_cases (before : List Point) (p : Point) :
  (announced before p = [] ∧ names (before ++ [p]) = names before) ∨
    ∃ name, p.name = some name ∧ name ∉ names before ∧
      names (before ++ [p]) = names before ++ [name] ∧
      announced before p
        = [⟨p.flags, .nameIntern (nameId (names (before ++ [p])) name) name, .critical⟩]
  := by
  rw [announced]
  cases hp : p.name with
  | none => exact Or.inl ⟨rfl, names_concat_of_none hp⟩
  | some name =>
      dsimp only
      rw [names_concat_of_some hp, addName]
      by_cases hnew : validName name = true ∧ name ∉ names before ∧ (names before).length < maxNames
      · rw [if_pos hnew, if_pos ⟨List.mem_append_right _ (List.mem_singleton_self name), hnew.2.1⟩]
        exact Or.inr ⟨name, rfl, hnew.2.1, rfl, rfl⟩
      · rw [if_neg hnew, if_neg (fun h => h.2 h.1)]
        exact Or.inl ⟨rfl, rfl⟩

/-- What a point reports is about a name that is taken. -/
theorem reported_used (before : List Point) (p : Point) :
  ∀ e ∈ reported before p, internedName e = none ∧
    ∀ id, usedId e = some id → ∃ name ∈ names (before ++ [p]), id = nameId (names (before ++ [p])) name
  := by
  intro e he
  cases p with
  | assertAlways cond name details =>
      rw [reported] at he
      split at he
      · next h =>
        rw [violation_eq_map] at he
        obtain ⟨r, _, rfl⟩ := List.mem_map.mp he
        exact ⟨rfl, fun id hid => ⟨name, h.1, (Option.some.inj hid).symm⟩⟩
      · cases he
  | expectReachable name =>
      rw [reported] at he
      split at he
      · next h =>
        rw [List.mem_singleton.mp he]
        exact ⟨rfl, fun id hid => ⟨name, h.1, (Option.some.inj hid).symm⟩⟩
      · cases he
  | declareReachable name => cases he
  | coverageBeacon id =>
      rw [reported] at he
      split at he
      · rw [List.mem_singleton.mp he]
        refine ⟨rfl, ?_⟩
        intro id hid
        cases hid
      · cases he
  | injectPoint name => cases he

theorem asked_used (s : SdkState) (before : List Point) (p : Point) :
  ∀ e ∈ asked s before p, internedName e = none ∧
    ∀ id, usedId e = some id → ∃ name ∈ names (before ++ [p]), id = nameId (names (before ++ [p])) name
  := by
  intro e he
  cases p with
  | injectPoint name =>
      rw [asked] at he
      split at he
      · next h =>
        rw [List.mem_singleton.mp he]
        exact ⟨rfl, fun id hid => ⟨name, h, (Option.some.inj hid).symm⟩⟩
      · cases he
  | _ => cases he

theorem asked_cases (s : SdkState) (before : List Point) (p : Point) :
  asked s before p = [] ∨ ∃ id, asked s before p = [⟨0, .injectQuery s.nextIseq id, .critical⟩]
  := by
  cases p with
  | injectPoint name =>
      rw [asked]
      split
      · exact Or.inr ⟨_, rfl⟩
      · exact Or.inl rfl
  | _ => exact Or.inl rfl

/-- What the events of a point tell of what it reports. -/
theorem filterMap_point {β : Type} {f : Emission → Option β} (s : SdkState) (before : List Point)
    (p : Point) (hname : ∀ flags id name, f ⟨flags, .nameIntern id name, .critical⟩ = none)
    (hquery : ∀ iseq id, f ⟨0, .injectQuery iseq id, .critical⟩ = none) :
  (announced before p ++ (reported before p ++ asked s before p)).filterMap f
    = (reported before p).filterMap f
  := by
  have hannounced : (announced before p).filterMap f = [] := by
    rcases announced_cases before p with ⟨hnone, _⟩ | ⟨name, _, _, _, hone⟩
    · rw [hnone, List.filterMap_nil]
    · rw [hone, List.filterMap_cons_none (hname _ _ _), List.filterMap_nil]
  have hasked : (asked s before p).filterMap f = [] := by
    rcases asked_cases s before p with hnone | ⟨id, hone⟩
    · rw [hnone, List.filterMap_nil]
    · rw [hone, List.filterMap_cons_none (hquery _ _), List.filterMap_nil]
  rw [List.filterMap_append, List.filterMap_append, hannounced, hasked, List.nil_append,
    List.append_nil]

theorem violation_silent {β : Type} {f : Emission → Option β} (id : UInt32) (n : Nat)
    (details : Bytes) (hf : ∀ count text, f ⟨0, .assertViolation id count text, .critical⟩ = none) :
  (violation id n details).filterMap f = []
  := by
  rw [violation_eq_map]
  apply List.filterMap_eq_nil_iff.mpr
  intro e he
  obtain ⟨r, _, rfl⟩ := List.mem_map.mp he
  exact hf _ _

/-- The report of a hit. -/
theorem reached_reported (before : List Point) (p : Point) :
  (reported before p).filterMap reachedId
    = match p.hit with
      | some name =>
          if name ∈ names (before ++ [p]) ∧ hits before name = 0 then
            [nameId (names (before ++ [p])) name]
          else []
      | none => []
  := by
  cases p with
  | assertAlways cond name details =>
      rw [reported, Point.hit.eq_def]
      split
      · exact violation_silent _ _ _ fun _ _ => rfl
      · rfl
  | expectReachable name =>
      rw [reported, Point.hit]
      dsimp only
      by_cases hfirst : name ∈ names (before ++ [.expectReachable name]) ∧ hits before name = 0
      · rw [if_pos hfirst, if_pos hfirst]
        rfl
      · rw [if_neg hfirst, if_neg hfirst]
        rfl
  | declareReachable name => rfl
  | coverageBeacon id =>
      rw [reported, Point.hit.eq_def]
      split <;> rfl
  | injectPoint name => rfl

/-- The report of a beacon. -/
theorem beacon_reported (before : List Point) (p : Point) :
  (reported before p).filterMap beaconId
    = match p.beacon with
      | some slot => if beaconHits before slot = 0 then [UInt32.ofNat slot] else []
      | none => []
  := by
  cases p with
  | assertAlways cond name details =>
      rw [reported, Point.beacon.eq_def]
      split
      · exact violation_silent _ _ _ fun _ _ => rfl
      · rfl
  | expectReachable name =>
      rw [reported, Point.beacon.eq_def]
      split <;> rfl
  | declareReachable name => rfl
  | coverageBeacon id =>
      rw [reported, Point.beacon]
      dsimp only
      by_cases hfirst : beaconHits before (beaconSlot id) = 0
      · rw [if_pos hfirst, if_pos hfirst]
        rfl
      · rw [if_neg hfirst, if_neg hfirst]
        rfl
  | injectPoint name => rfl

/-- The report of a violation of a name that is taken. -/
theorem violation_reported (hmem : name ∈ names (before ++ [p])) :
  (reported before p).filterMap (violationOf (nameId (names (before ++ [p])) name))
    = match p.failure name with
      | some details => reportOf (asserts false before name) details
      | none => []
  := by
  have hlen := length_names_le (before ++ [p])
  cases p with
  | assertAlways cond n details =>
      have hself : (reportOf (asserts false before name) details).filterMap (fun r =>
          violationOf (nameId (names (before ++ [.assertAlways cond n details])) name)
            ⟨0, .assertViolation (nameId (names (before ++ [.assertAlways cond n details])) name)
              r.1 r.2, .critical⟩) = reportOf (asserts false before name) details := by
        simp [violationOf]
      rw [reported, Point.failure]
      by_cases hfails : cond = false ∧ n = name
      · obtain ⟨hcond, rfl⟩ := hfails
        rw [if_pos ⟨hmem, hcond⟩, if_pos ⟨hcond, rfl⟩, violation_eq_map, List.filterMap_map]
        exact hself
      · rw [if_neg hfails]
        by_cases htaken : n ∈ names (before ++ [.assertAlways cond n details]) ∧ cond = false
        · rw [if_pos htaken]
          apply List.filterMap_eq_nil_iff.mpr
          intro e he
          rw [violation_eq_map] at he
          obtain ⟨r, _, rfl⟩ := List.mem_map.mp he
          apply if_neg
          intro heq
          exact hfails ⟨htaken.2, nameId_inj htaken.1 hmem hlen heq⟩
        · rw [if_neg htaken]
          rfl
  | expectReachable n =>
      rw [reported, Point.failure]
      split <;> rfl
  | declareReachable n => rfl
  | coverageBeacon id =>
      rw [reported, Point.failure]
      split <;> rfl
  | injectPoint n => rfl

end Points

/-! ### Whole histories -/

/-- The events `es` of a history, by what they are about.

* The intern table takes the different valid names that were used, as long as it has ids.
* Each of these names is announced once, and in front of the other events about it.
* Each of these names that was hit is reported once, and so is each beacon that was hit.
* The violations of a name are counted one by one, up to a summary in place of the 17th.
* There are no other events besides the inject queries, and only those of beacons may be dropped.
  None is marked as truncated before it is encoded. -/
structure Suppression (before : List Point) (es : List Emission) : Prop where
  taken : names before = ((before.filterMap Point.name).filter validName).eraseDups.take maxNames
  interned : es.filterMap internedName
    = (names before).map fun name => (nameId (names before) name, name)
  ahead : Announced [] es
  reached : es.filterMap reachedId = (hitNames before).map (nameId (names before))
  beacons : es.filterMap beaconId = (before.filterMap Point.beacon).eraseDups.map UInt32.ofNat
  violations : ∀ name ∈ names before,
    es.filterMap (violationOf (nameId (names before) name)) = reports (failures before name)
  kinds : ∀ e ∈ es,
    e.ev.kind ∈ [.nameIntern, .reachable, .beacon, .assertViolation, .injectQuery] ∧
    (e.cls = .droppable ↔ e.ev.kind = .beacon) ∧ e.extraFlags &&& flagTruncated = 0

theorem suppression_nil :
  Suppression [] []
  := by
  refine ⟨rfl, rfl, trivial, rfl, rfl, ?_, ?_⟩
  · intro name hname
    cases hname
  · intro e he
    cases he

section Histories

variable {before : List Point} {es : List Emission} {s : SdkState}

/-- The names that were taken keep their ids. -/
theorem map_nameId_concat {xs : List Bytes} (hxs : ∀ x ∈ xs, x ∈ names before) (p : Point) :
  xs.map (nameId (names (before ++ [p]))) = xs.map (nameId (names before))
  := by
  apply List.map_congr_left
  intro x hx
  exact nameId_concat (hxs x hx) p

/-- The names that are announced behind a point. -/
theorem Suppression.interned_point (h : Suppression before es) (s : SdkState) (p : Point) :
  (es ++ (announced before p ++ (reported before p ++ asked s before p))).filterMap internedName
    = (names (before ++ [p])).map fun name => (nameId (names (before ++ [p])) name, name)
  := by
  have hreported : (reported before p).filterMap internedName = [] :=
    List.filterMap_eq_nil_iff.mpr fun e he => (reported_used before p e he).1
  have hasked : (asked s before p).filterMap internedName = [] :=
    List.filterMap_eq_nil_iff.mpr fun e he => (asked_used s before p e he).1
  rw [List.filterMap_append, List.filterMap_append, List.filterMap_append, hreported, hasked,
    h.interned, List.append_nil, List.append_nil]
  rcases announced_cases before p with ⟨hnone, hsame⟩ | ⟨name, _, hnew, hmore, hone⟩
  · rw [hnone, hsame, List.filterMap_nil, List.append_nil]
  · have hold : (names before).map (fun name => (nameId (names (before ++ [p])) name, name))
        = (names before).map fun name => (nameId (names before) name, name) := by
      apply List.map_congr_left
      intro x hx
      rw [nameId_concat hx p]
    have hmap : (names (before ++ [p])).map (fun name => (nameId (names (before ++ [p])) name, name))
        = ((names before).map fun name => (nameId (names (before ++ [p])) name, name))
          ++ [(nameId (names (before ++ [p])) name, name)] := by
      rw [← List.map_singleton (f := fun name => (nameId (names (before ++ [p])) name, name)),
        ← List.map_append, ← hmore]
    rw [hone, hmap, hold]
    rfl

/-- The events about a name that is taken come behind its announcement. -/
theorem Suppression.ahead_point (h : Suppression before es) (s : SdkState) (p : Point) :
  Announced [] (es ++ (announced before p ++ (reported before p ++ asked s before p)))
  := by
  have hids : internedIds (es ++ announced before p)
      = (names (before ++ [p])).map (nameId (names (before ++ [p]))) := by
    have hnone : internedIds (reported before p ++ asked s before p) = [] := by
      rw [internedIds, List.map_eq_nil_iff]
      apply List.filterMap_eq_nil_iff.mpr
      intro e he
      rcases List.mem_append.mp he with he | he
      · exact (reported_used before p e he).1
      · exact (asked_used s before p e he).1
    have hall := congrArg (List.map Prod.fst) (h.interned_point s p)
    rw [← List.append_assoc] at hall
    change internedIds _ = _ at hall
    rw [internedIds_append, hnone, List.append_nil, List.map_map] at hall
    exact hall
  have hused : ∀ (rest : List Emission) (known : List UInt32),
      (∀ e ∈ rest, internedName e = none ∧ ∀ id, usedId e = some id → id ∈ known) →
      Announced known rest := by
    intro rest
    induction rest with
    | nil => exact fun _ _ => trivial
    | cons e rest ih =>
        intro known hrest
        have hnone : internedIds [e] = [] := by
          rw [internedIds, List.filterMap_cons_none (hrest e List.mem_cons_self).1]
          rfl
        refine ⟨(hrest e List.mem_cons_self).2, ?_⟩
        rw [hnone, List.append_nil]
        exact ih known fun e he => hrest e (List.mem_cons_of_mem _ he)
  have hfront : Announced [] (es ++ announced before p) := by
    apply announced_append h.ahead
    rcases announced_cases before p with ⟨hnone, _⟩ | ⟨name, _, _, _, hone⟩
    · rw [hnone]
      trivial
    · rw [hone]
      refine ⟨?_, trivial⟩
      intro id hid
      cases hid
  rw [← List.append_assoc]
  apply announced_append hfront
  apply hused
  have hmem : ∀ id, (∃ name ∈ names (before ++ [p]), id = nameId (names (before ++ [p])) name) →
      id ∈ [] ++ internedIds (es ++ announced before p) := by
    rintro id ⟨name, hname, rfl⟩
    rw [List.nil_append, hids]
    exact List.mem_map_of_mem hname
  intro e he
  rcases List.mem_append.mp he with he | he
  · obtain ⟨hnone, hid⟩ := reported_used before p e he
    exact ⟨hnone, fun id huse => hmem id (hid id huse)⟩
  · obtain ⟨hnone, hid⟩ := asked_used s before p e he
    exact ⟨hnone, fun id huse => hmem id (hid id huse)⟩

/-- Events about a name come behind its announcement, so that there are none without it. -/
theorem violations_of_unknown {known : List UInt32} {id : UInt32} (h : Announced known es)
    (hid : id ∉ known ++ internedIds es) :
  es.filterMap (violationOf id) = []
  := by
  induction es generalizing known with
  | nil => rfl
  | cons e es ih =>
      obtain ⟨hused, hrest⟩ := h
      have hother : violationOf id e = none := by
        rw [violationOf]
        split
        · next nameId count details hev =>
          apply if_neg
          rintro rfl
          apply hid
          apply List.mem_append_left
          apply hused
          rw [usedId, hev]
        · rfl
      rw [List.filterMap_cons_none hother]
      apply ih hrest
      rw [List.append_assoc, ← internedIds_append]
      exact hid

/-- The kinds of the events of a point. -/
theorem kinds_point (s : SdkState) (before : List Point) (p : Point) :
  ∀ e ∈ announced before p ++ (reported before p ++ asked s before p),
    e.ev.kind ∈ [.nameIntern, .reachable, .beacon, .assertViolation, .injectQuery] ∧
    (e.cls = .droppable ↔ e.ev.kind = .beacon) ∧ e.extraFlags &&& flagTruncated = 0
  := by
  have hflags : p.flags &&& flagTruncated = 0 := by cases p <;> (rw [Point.flags]; decide)
  intro e he
  rcases List.mem_append.mp he with he | he
  · rcases announced_cases before p with ⟨hnone, _⟩ | ⟨name, _, _, _, hone⟩
    · rw [hnone] at he
      cases he
    · rw [hone] at he
      rw [List.mem_singleton.mp he]
      simp [EventPayload.kind, hflags]
  rcases List.mem_append.mp he with he | he
  · cases p with
    | assertAlways cond name details =>
        rw [reported] at he
        split at he
        · rw [violation_eq_map] at he
          obtain ⟨r, _, rfl⟩ := List.mem_map.mp he
          simp [EventPayload.kind]
        · cases he
    | expectReachable name =>
        rw [reported] at he
        split at he
        · rw [List.mem_singleton.mp he]
          simp [EventPayload.kind]
        · cases he
    | declareReachable name => cases he
    | coverageBeacon id =>
        rw [reported] at he
        split at he
        · rw [List.mem_singleton.mp he]
          simp [EventPayload.kind]
        · cases he
    | injectPoint name => cases he
  · rcases asked_cases s before p with hnone | ⟨id, hone⟩
    · rw [hnone] at he
      cases he
    · rw [hone] at he
      rw [List.mem_singleton.mp he]
      simp [EventPayload.kind]

/-- **One point more.** -/
theorem Suppression.point (h : Suppression before es) (s : SdkState) (p : Point) :
  Suppression (before ++ [p])
    (es ++ (announced before p ++ (reported before p ++ asked s before p)))
  := by
  have hlen := length_names_le (before ++ [p])
  refine ⟨names_eq _, h.interned_point s p, h.ahead_point s p, ?_, ?_, ?_, ?_⟩
  · have hold : ∀ x ∈ hitNames before, x ∈ names before := fun x hx => (mem_firsts.mp hx).2
    rw [List.filterMap_append, h.reached, filterMap_point s before p (fun _ _ _ => rfl)
      (fun _ _ => rfl), reached_reported, ← map_nameId_concat hold p]
    cases hp : p.hit with
    | none =>
        rw [hitNames, hitNames, firsts_concat_of_none name_of_hit hp]
        exact List.append_nil _
    | some name =>
        dsimp only
        rw [hitNames, hitNames, firsts_concat_of_some name_of_hit hp]
        by_cases hmem : name ∈ names (before ++ [p])
        · have hfirst := mem_hitNames_iff hmem
          by_cases hzero : hits before name = 0
          · have hnew : name ∉ firsts Point.hit before := fun hin => hfirst.mp hin hzero
            rw [if_pos ⟨hmem, hzero⟩, if_pos ⟨hmem, hnew⟩, List.map_append, List.map_singleton]
          · have hin : name ∈ firsts Point.hit before := hfirst.mpr hzero
            rw [if_neg (fun h => hzero h.2), if_neg (fun h => h.2 hin), List.append_nil]
        · rw [if_neg (fun h => hmem h.1), if_neg (fun h => hmem h.1), List.append_nil]
  · rw [List.filterMap_append, h.beacons, filterMap_point s before p (fun _ _ _ => rfl)
      (fun _ _ => rfl), beacon_reported, List.filterMap_append]
    cases hp : p.beacon with
    | none =>
        rw [List.filterMap_cons_none hp, List.filterMap_nil, List.append_nil, List.append_nil]
    | some slot =>
        have hzero : beaconHits before slot = 0 ↔ slot ∉ before.filterMap Point.beacon :=
          List.count_eq_zero
        dsimp only
        rw [List.filterMap_cons_some hp, List.filterMap_nil, eraseDups_concat]
        by_cases hold : slot ∈ before.filterMap Point.beacon
        · rw [if_neg (fun h => hzero.mp h hold), if_pos hold, List.append_nil]
        · rw [if_pos (hzero.mpr hold), if_neg hold, List.map_append, List.map_singleton]
  · intro name hmem
    have hreports : reports (failures (before ++ [p]) name) = reports (failures before name)
        ++ match p.failure name with
          | some details => reportOf (asserts false before name) details
          | none => [] := by
      rw [failures, List.filterMap_append, ← length_failures]
      cases hp : p.failure name with
      | none =>
          rw [List.filterMap_cons_none hp, List.filterMap_nil, List.append_nil]
          exact (List.append_nil _).symm
      | some details =>
          rw [List.filterMap_cons_some hp, List.filterMap_nil, reports_concat]
          rfl
    rw [List.filterMap_append, filterMap_point s before p (fun _ _ _ => rfl) (fun _ _ => rfl),
      violation_reported hmem, hreports]
    congr 1
    by_cases hold : name ∈ names before
    · rw [nameId_concat hold p]
      exact h.violations name hold
    · -- the name is new: nothing was reported about its id, and its assertion has not failed
      have hunused : name ∉ before.filterMap Point.name := by
        intro huse
        exact hold ((mem_names_concat_iff huse p).mp hmem)
      have hfailed : failures before name = [] := by
        apply List.eq_nil_of_length_eq_zero
        rw [length_failures]
        exact count_eq_zero_of_unused name_of_asserted hunused
      have hids : internedIds es = (names before).map (nameId (names before)) := by
        rw [internedIds, h.interned, List.map_map]
        rfl
      rw [hfailed]
      apply violations_of_unknown h.ahead
      rw [List.nil_append, hids]
      intro hin
      obtain ⟨other, hother, heq⟩ := List.mem_map.mp hin
      rw [← nameId_concat hother p] at heq
      exact hold (nameId_inj (mem_names_later hother p) hmem hlen heq ▸ hother)
  · intro e he
    rcases List.mem_append.mp he with he | he
    · exact h.kinds e he
    · exact kinds_point s before p e he

/-- **Runs of points.** -/
theorem Suppression.points (h : Suppression before es) (ht : Tracks before s) (ps : List Point) :
  Suppression (before ++ ps) (es ++ (s.points ps).2)
  := by
  induction ps generalizing before es s with
  | nil =>
      rw [List.append_nil]
      exact (List.append_nil es).symm ▸ h
  | cons p ps ih =>
      obtain ⟨hnext, hout⟩ := ht.point p
      have hend := ih (h.point s p) hnext
      rw [List.append_assoc, List.singleton_append, ← hout, List.append_assoc] at hend
      exact hend

end Histories

end Sdk
