import DetGuest.Agent.Boot
import DetGuest.Agent.Tables

/-!
# Round trip of the boot manifest

A boot manifest may be written in many ways: its sections and their keys in many orders, numbers
decimal or hexadecimal, strings with escapes, and blanks and comments around all of it.  Whichever
way it is written, it is parsed to itself.
-/

namespace Agent

namespace Boot

open Wire Tiny

/-! ### Sections -/

/-- The sections that belong together. -/
inductive Kind where
  | units
  | autostart
  | regions
  deriving DecidableEq

/-- A section, with what it says. -/
inductive Section where
  | unit (id : UInt32) (exec : Text) (args : List Text) (logMask : UInt32)
  | control (c : UnitControl)
  | autostart (id : UInt32)
  | region (r : ExpectedRegion)

def Section.kind : Section → Kind
  | .unit .. => .units
  | .control _ => .units
  | .autostart _ => .autostart
  | .region _ => .regions

/-- The header of a section. -/
def Section.header : Section → Stmt
  | .unit .. => .array [] "unit".toList
  | .control _ => .table ["unit".toList, "control".toList]
  | .autostart _ => .table ["autostart".toList]
  | .region _ => .array [] "expected_region".toList

/-- The number of a key. -/
def number (v : UInt32) : Value := .int v.toNat

def GameSource.value : GameSource → Value
  | .pvBlk => .str "pv-blk".toList

/-- A key that is left out where it says nothing. -/
def optional (key : Text) (v : Option Value) : Table := (v.map fun v => (key, v)).toList

/-- The keys of a section with their values, in the order of the schema.  The arguments of a unit
and its log mask may be left out if they are what is assumed without them. -/
inductive Section.Keys : Section → Table → Prop where
  | unit {id logMask : UInt32} {exec : Text} {args : List Text} {a l : Option Value} :
      a = some (.array (args.map .str)) ∨ args = [] ∧ a = none →
      l = some (number logMask) ∨ logMask = 0x1F ∧ l = none →
      Keys (.unit id exec args logMask)
        (("id".toList, number id) :: ("exec".toList, .str exec) ::
          (optional "args".toList a ++ optional "log_mask".toList l))
  | control {c : UnitControl} :
      Keys (.control c)
        (("protocol".toList, .str c.protocol) ::
          ("proto_version".toList, number c.protoVersion) ::
          (optional "game_dev".toList (c.gameDev.map .str) ++
            optional "game_source".toList (c.gameSource.map GameSource.value)))
  | autostart {id : UInt32} : Keys (.autostart id) [("unit".toList, number id)]
  | region {r : ExpectedRegion} :
      Keys (.region r)
        [("name".toList, .str r.name), ("layout_version".toList, number r.layoutVersion)]

/-- The lines of sections: each has its header, and behind it its keys in any order. -/
inductive Says : List Section → List Stmt → Prop where
  | nil : Says [] []
  | concat {secs : List Section} {stmts : List Stmt} {sec : Section} {keys es : Table} :
      Says secs stmts → sec.Keys keys → es.Perm keys →
      Says (secs ++ [sec]) (stmts ++ sec.header :: entries es)

/-- The sections of a unit: behind its own is that of its control protocol, if it has one. -/
def UnitEntry.sections (u : UnitEntry) : List Section :=
  .unit u.id u.exec u.args u.logMask :: (u.control.map .control).toList

/-- A text that renders a manifest: its lines say the version, and behind it the sections, between
which and in which any lines may say nothing.  The units are in any order, and each has its control
protocol behind it and before the next unit; the sections of other kinds are anywhere. -/
structure Rendering (m : BootManifest) (text : Text) where
  units : List UnitEntry
  secs : List Section
  body : List Stmt
  stmts : List Stmt
  permuted : units.Perm m.units
  unitSecs : secs.filter (fun sec => sec.kind = .units) = units.flatMap UnitEntry.sections
  autostartSecs :
    secs.filter (fun sec => sec.kind = .autostart) = m.autostartUnit.toList.map .autostart
  regionSecs : secs.filter (fun sec => sec.kind = .regions) = m.expectedRegions.map .region
  spoken : Says secs body
  said : (stmts.filter fun stmt => !stmt.isBlank)
    = .entry "boot_toml_version".toList (.int (1 : Nat)) :: body
  rendered : List.Forall₂ Renders stmts (text.splitOn '\n')

/-! ### What sections are read to -/

@[simp]
theorem inU32_number (v : UInt32) :
  inU32 v.toNat = true
  := by
  have hlt := v.toNat_lt
  simp only [inU32, Bool.and_eq_true, decide_eq_true_eq]
  omega

@[simp]
theorem asU32_number (v : UInt32) :
  asU32 v.toNat = v
  := by
  rw [asU32, Int.toNat_natCast, UInt32.ofNat_toNat]

theorem getU32_number {t : Table} {key : Text} {v : UInt32} (h : t.get key = some (number v)) :
  getU32 t key = some v
  := by
  rw [getU32, h, number]
  simp [Value.asInteger]

theorem getStr_str {t : Table} {key s : Text} (h : t.get key = some (.str s)) :
  getStr t key = some s
  := by
  rw [getStr, h]
  rfl

/-- The strings of arguments are the arguments. -/
theorem parseArgs_str (args : List Text) :
  parseArgs (args.map .str) = .ok args
  := by
  induction args with
  | nil => rfl
  | cons arg args ih =>
      rw [List.map_cons, parseArgs, ih]
      rfl

theorem get_optional (key : Text) (v : Option Value) (k : Text) :
  Table.get (optional key v) k = if k = key then v else none
  := by
  cases v with
  | none =>
      split
      · rfl
      · rfl
  | some v => exact Table.get_cons [] key v k

theorem optional_sublist (key : Text) (v : Option Value) :
  ((optional key v).map Prod.fst).Sublist [key]
  := by
  cases v with
  | none => exact List.nil_sublist _
  | some v => exact List.Sublist.refl _

/-- The keys of a section are apart. -/
theorem Section.Keys.nodup {sec : Section} {keys : Table} (h : sec.Keys keys) :
  (keys.map Prod.fst).Nodup
  := by
  cases h with
  | @unit id logMask exec args a l _ _ =>
      have hsub := (optional_sublist "args".toList a).append (optional_sublist "log_mask".toList l)
      rw [← List.map_append] at hsub
      apply List.Nodup.sublist ((hsub.cons_cons _).cons_cons _)
      show List.Nodup ["id".toList, "exec".toList, "args".toList, "log_mask".toList]
      decide
  | @control c =>
      have hsub := (optional_sublist "game_dev".toList (c.gameDev.map .str)).append
        (optional_sublist "game_source".toList (c.gameSource.map GameSource.value))
      rw [← List.map_append] at hsub
      apply List.Nodup.sublist ((hsub.cons_cons _).cons_cons _)
      show List.Nodup
        ["protocol".toList, "proto_version".toList, "game_dev".toList, "game_source".toList]
      decide
  | autostart => exact List.nodup_singleton _
  | region =>
      show List.Nodup ["name".toList, "layout_version".toList]
      decide

/-- What is read of the arguments of a unit. -/
theorem getArgs_of_get {t : Table} {args : List Text} {a : Option Value}
    (hget : t.get "args".toList = a) (ha : a = some (.array (args.map .str)) ∨ args = [] ∧ a = none) :
  getArgs t = .ok args
  := by
  rw [getArgs, hget]
  rcases ha with rfl | ⟨rfl, rfl⟩
  · exact parseArgs_str args
  · rfl

theorem getLogMask_of_get {t : Table} {logMask : UInt32} {l : Option Value}
    (hget : t.get "log_mask".toList = l)
    (hl : l = some (number logMask) ∨ logMask = 0x1F ∧ l = none) :
  getLogMask t = .ok logMask
  := by
  rw [getLogMask, hget]
  rcases hl with rfl | ⟨rfl, rfl⟩
  · dsimp only
    rw [getU32_number hget]
    rfl
  · rfl

/-- The table of a unit is read to the unit. -/
theorem parseUnit_keys {id logMask : UInt32} {exec : Text} {args : List Text} {keys es : Table}
    (h : Section.Keys (.unit id exec args logMask) keys) (hperm : es.Perm keys)
    (hexec : exec.head? = some '/') :
  parseUnit (.table es) = .ok { id, exec, args, logMask, control := none }
  := by
  have hget := Table.get_perm hperm h.nodup
  cases h with
  | @unit _ _ _ _ a l ha hl =>
      have hid : es.get "id".toList = some (number id) := by
        rw [hget, Table.get_cons, if_pos rfl]
      have hstr : getStr es "exec".toList = some exec := by
        apply getStr_str
        rw [hget, Table.get_cons, if_neg (by decide), Table.get_cons, if_pos rfl]
      have hargs : es.get "args".toList = a := by
        rw [hget, Table.get_cons, if_neg (by decide), Table.get_cons, if_neg (by decide),
          Table.get_append, get_optional, if_pos rfl, get_optional, if_neg (by decide),
          Option.or_none]
      have hmask : es.get "log_mask".toList = l := by
        rw [hget, Table.get_cons, if_neg (by decide), Table.get_cons, if_neg (by decide),
          Table.get_append, get_optional, if_neg (by decide), get_optional, if_pos rfl,
          Option.none_or]
      have hcontrol : es.get "control".toList = none := by
        rw [hget, Table.get_cons, if_neg (by decide), Table.get_cons, if_neg (by decide),
          Table.get_append, get_optional, if_neg (by decide), get_optional, if_neg (by decide),
          Option.none_or]
      have hnone : getControl es = .ok none := by
        rw [getControl, hcontrol]
      have hint : (es.get "id".toList).bind Value.asInteger = some (id.toNat : Int) := by
        rw [hid]
        rfl
      simp only [parseUnit, Value.asTable, orFault, Res.ok_bind, hint, inU32_number, hstr, hexec,
        getArgs_of_get hargs ha, getLogMask_of_get hmask hl, hnone, asU32_number, ne_eq,
        not_true_eq_false, Bool.true_eq_false, Res.failIf_false, Res.pure_eq]

/-- The table of a control protocol is read to the protocol. -/
theorem parseControl_keys {c : UnitControl} {keys es : Table} (h : Section.Keys (.control c) keys)
    (hperm : es.Perm keys) (hgame : c.protocol = refworkCtl → c.gameDev.isSome) :
  parseControl (.table es) = .ok c
  := by
  have hget := Table.get_perm hperm h.nodup
  cases h with
  | control =>
      have hprotocol : getStr es "protocol".toList = some c.protocol := by
        apply getStr_str
        rw [hget, Table.get_cons, if_pos rfl]
      have hversion : getU32 es "proto_version".toList = some c.protoVersion := by
        apply getU32_number
        rw [hget, Table.get_cons, if_neg (by decide), Table.get_cons, if_pos rfl]
      have hdev : getStr es "game_dev".toList = c.gameDev := by
        rw [getStr, hget, Table.get_cons, if_neg (by decide), Table.get_cons, if_neg (by decide),
          Table.get_append, get_optional, if_pos rfl, get_optional, if_neg (by decide),
          Option.or_none]
        cases c.gameDev with
        | none => rfl
        | some dev => rfl
      have hsource : parseGameSource es = .ok c.gameSource := by
        rw [parseGameSource, hget, Table.get_cons, if_neg (by decide), Table.get_cons,
          if_neg (by decide), Table.get_append, get_optional, if_neg (by decide), get_optional,
          if_pos rfl, Option.none_or]
        cases c.gameSource with
        | none => rfl
        | some source =>
            cases source with
            | pvBlk => exact if_pos rfl
      have hallowed : ¬ (c.protocol = refworkCtl ∧ c.gameDev = none) := by
        rintro ⟨hproto, hnone⟩
        have hsome := hgame hproto
        rw [hnone] at hsome
        cases hsome
      simp only [parseControl, Value.asTable, orFault, Res.ok_bind, hprotocol, hversion, hdev,
        Res.failIf_of_not hallowed, hsource, Res.pure_eq]

/-- The table of an expected region. -/
def RegionOf (v : Value) (r : ExpectedRegion) : Prop :=
  ∃ t, v = .table t ∧ getStr t "name".toList = some r.name ∧
    getU32 t "layout_version".toList = some r.layoutVersion

theorem regionOf_keys {r : ExpectedRegion} {keys es : Table} (h : Section.Keys (.region r) keys)
    (hperm : es.Perm keys) :
  RegionOf (.table es) r
  := by
  have hget := Table.get_perm hperm h.nodup
  cases h with
  | region =>
      refine ⟨es, rfl, ?_, ?_⟩
      · apply getStr_str
        rw [hget, Table.get_cons, if_pos rfl]
      · apply getU32_number
        rw [hget, Table.get_cons, if_neg (by decide), Table.get_cons, if_pos rfl]

/-! ### Control protocols -/

theorem table_of_parseUnit {v : Value} {u : UnitEntry} (h : parseUnit v = .ok u) :
  ∃ t, v = .table t
  := by
  cases v with
  | table t => exact ⟨t, rfl⟩
  | str s => cases h
  | int i => cases h
  | array items => cases h

theorem control_of_parseUnit {t : Table} {u : UnitEntry} (h : parseUnit (.table t) = .ok u)
    (hnone : u.control = none) :
  t.get "control".toList = none
  := by
  simp only [parseUnit, Res.bind_eq_ok, orFault_eq_ok, failIf_eq_ok, Res.pure_eq,
    Res.ok.injEq] at h
  obtain ⟨_, ht, _, _, _, _, _, _, _, _, _, _, _, _, control, hcontrol, rfl⟩ := h
  cases ht
  rw [getControl] at hcontrol
  cases hget : t.get "control".toList with
  | none => rfl
  | some v =>
      simp only [hget, Res.bind_eq_ok, Res.pure_eq, Res.ok.injEq] at hcontrol
      obtain ⟨c, _, rfl⟩ := hcontrol
      cases hnone

/-- A unit gets the control protocol that stands in its table. -/
theorem parseUnit_control {t ct : Table} {u : UnitEntry} {c : UnitControl}
    (h : parseUnit (.table t) = .ok u) (hc : parseControl (.table ct) = .ok c) :
  parseUnit (.table (t.set "control".toList (.table ct))) = .ok { u with control := some c }
  := by
  simp only [parseUnit, Res.bind_eq_ok, orFault_eq_ok, failIf_eq_ok, Res.pure_eq,
    Res.ok.injEq] at h
  obtain ⟨_, ht, id, hid, _, hrange, exec, hexec, _, habs, args, hargs, mask, hmask, _, _, rfl⟩ := h
  cases ht
  have hget : ∀ k, k ≠ "control".toList →
      (t.set "control".toList (.table ct)).get k = t.get k :=
    fun k hk => Table.get_set_ne t _ _ hk
  have hcontrol : getControl (t.set "control".toList (.table ct)) = .ok (some c) := by
    rw [getControl, Table.get_set_self]
    dsimp only
    rw [hc]
    rfl
  have hexec' : getStr (t.set "control".toList (.table ct)) "exec".toList = some exec := by
    rw [getStr, hget _ (by decide)]
    exact hexec
  have hargs' : getArgs (t.set "control".toList (.table ct)) = .ok args := by
    rw [getArgs, hget _ (by decide)]
    exact hargs
  have hmask' : getLogMask (t.set "control".toList (.table ct)) = .ok mask := by
    rw [getLogMask, getU32, hget _ (by decide)]
    exact hmask
  simp only [parseUnit, Value.asTable, orFault, Res.ok_bind,
    hget _ (show "id".toList ≠ "control".toList by decide), hid, hexec', hargs', hmask', hcontrol,
    Res.failIf_of_not hrange, Res.failIf_of_not habs, Res.pure_eq]

/-! ### Documents -/

section Lists

variable {α : Type} {Of : Value → α → Prop} {v : Option Value} {xs : List α}

/-- What a key has that is an array of tables, and what the tables are read to. -/
def Lists (Of : Value → α → Prop) (v : Option Value) (xs : List α) : Prop :=
  ∃ items, (v = none ∧ items = [] ∨ v = some (.array items)) ∧ List.Forall₂ Of items xs

theorem Lists.concat {items : List Value} {item : Value} {x : α} (h : List.Forall₂ Of items xs)
    (hx : Of item x) :
  Lists Of (some (.array (items ++ [item]))) (xs ++ [x])
  := ⟨_, .inr rfl, List.rel_append h (.cons hx .nil)⟩

theorem forall₂_concat {items : List Value} {x : α} (h : List.Forall₂ Of items (xs ++ [x])) :
  ∃ vs v, items = vs ++ [v] ∧ List.Forall₂ Of vs xs ∧ Of v x
  := by
  have hfirst := List.forall₂_take_append items xs [x] h
  have hlast := List.forall₂_drop_append items xs [x] h
  have hitems := List.take_append_drop xs.length items
  generalize items.drop xs.length = last at hlast hitems
  cases hlast with
  | @cons v _ _ _ hv hnil =>
      cases hnil
      exact ⟨_, v, hitems.symm, hfirst, hv⟩

end Lists

/-- What the key of the unit to start has. -/
inductive Starts : Option Value → Option UInt32 → Prop where
  | none : Starts none none
  | some {t : Table} {id : UInt32} : getU32 t "unit".toList = some id →
      Starts (some (.table t)) (some id)

/-- What a document has behind the version and some sections. -/
structure Content (root : Table) (units : List UnitEntry) (autostart : Option UInt32)
    (regions : List ExpectedRegion) : Prop where
  version : root.get "boot_toml_version".toList = some (.int (1 : Nat))
  units : Lists (fun v u => parseUnit v = .ok u) (root.get "unit".toList) units
  autostart : Starts (root.get "autostart".toList) autostart
  regions : Lists RegionOf (root.get "expected_region".toList) regions

section Steps

variable {root : Table} {cur : List Text} {us : List UnitEntry} {autostart : Option UInt32}
  {rs : List ExpectedRegion} {keys es : Table}

/-- A section of a unit adds the unit. -/
theorem Content.unit (h : Content root us autostart rs) {id logMask : UInt32} {exec : Text}
    {args : List Text} (hkeys : Section.Keys (.unit id exec args logMask) keys)
    (hperm : es.Perm keys) (hexec : exec.head? = some '/') :
  ∃ doc, Stmt.runAll { root, curPath := cur } (.array [] "unit".toList :: entries es) = .ok doc ∧
    Content doc.root (us ++ [{ id, exec, args, logMask, control := none }]) autostart rs
  := by
  obtain ⟨items, hitems, hunits⟩ := h.units
  have hnodup : (es.map Prod.fst).Nodup := (hperm.map Prod.fst).nodup_iff.mpr hkeys.nodup
  refine ⟨_, runAll_array (by decide) hitems hnodup, ?_, ?_, ?_, ?_⟩
  · rw [Table.get_set_ne _ _ _ (by decide)]
    exact h.version
  · rw [Table.get_set_self]
    exact .concat hunits (parseUnit_keys hkeys hperm hexec)
  · rw [Table.get_set_ne _ _ _ (by decide)]
    exact h.autostart
  · rw [Table.get_set_ne _ _ _ (by decide)]
    exact h.regions

/-- A section of a control protocol gives it to the last unit. -/
theorem Content.control {u : UnitEntry} (h : Content root (us ++ [u]) autostart rs)
    (hnone : u.control = none) {c : UnitControl} (hkeys : Section.Keys (.control c) keys)
    (hperm : es.Perm keys) (hgame : c.protocol = refworkCtl → c.gameDev.isSome) :
  ∃ doc, Stmt.runAll { root, curPath := cur }
      (.table ["unit".toList, "control".toList] :: entries es) = .ok doc ∧
    Content doc.root (us ++ [{ u with control := some c }]) autostart rs
  := by
  obtain ⟨items, hitems, hunits⟩ := h.units
  have hnodup : (es.map Prod.fst).Nodup := (hperm.map Prod.fst).nodup_iff.mpr hkeys.nodup
  obtain ⟨items, v, rfl, hfirst, hlast⟩ := forall₂_concat hunits
  obtain ⟨t, rfl⟩ := table_of_parseUnit hlast
  have hunit : root.get "unit".toList = some (.array (items ++ [.table t])) := by
    rcases hitems with ⟨_, hnil⟩ | hsome
    · exact absurd hnil (by simp)
    · exact hsome
  refine ⟨_, runAll_subtable (by decide) (by decide) hunit (control_of_parseUnit hlast hnone) hnodup,
    ?_, ?_, ?_, ?_⟩
  · rw [Table.get_set_ne _ _ _ (by decide)]
    exact h.version
  · rw [Table.get_set_self]
    exact .concat hfirst (parseUnit_control hlast (parseControl_keys hkeys hperm hgame))
  · rw [Table.get_set_ne _ _ _ (by decide)]
    exact h.autostart
  · rw [Table.get_set_ne _ _ _ (by decide)]
    exact h.regions

/-- The section of the unit to start. -/
theorem Content.start (h : Content root us none rs) {id : UInt32}
    (hkeys : Section.Keys (.autostart id) keys) (hperm : es.Perm keys) :
  ∃ doc, Stmt.runAll { root, curPath := cur } (.table ["autostart".toList] :: entries es) = .ok doc ∧
    Content doc.root us (some id) rs
  := by
  have hnone : root.get "autostart".toList = none := by
    have hstarts := h.autostart
    generalize root.get "autostart".toList = v at hstarts ⊢
    cases hstarts
    rfl
  have hnodup : (es.map Prod.fst).Nodup := (hperm.map Prod.fst).nodup_iff.mpr hkeys.nodup
  have hget := Table.get_perm hperm hkeys.nodup "unit".toList
  refine ⟨_, runAll_table (by decide) hnone hnodup, ?_, ?_, ?_, ?_⟩
  · rw [Table.get_set_ne _ _ _ (by decide)]
    exact h.version
  · rw [Table.get_set_ne _ _ _ (by decide)]
    exact h.units
  · rw [Table.get_set_self]
    apply Starts.some
    apply getU32_number
    rw [hget]
    cases hkeys
    rw [Table.get_cons, if_pos rfl]
  · rw [Table.get_set_ne _ _ _ (by decide)]
    exact h.regions

/-- A section of an expected region adds the region. -/
theorem Content.region (h : Content root us autostart rs) {r : ExpectedRegion}
    (hkeys : Section.Keys (.region r) keys) (hperm : es.Perm keys) :
  ∃ doc, Stmt.runAll { root, curPath := cur } (.array [] "expected_region".toList :: entries es)
      = .ok doc ∧ Content doc.root us autostart (rs ++ [r])
  := by
  obtain ⟨items, hitems, hregions⟩ := h.regions
  have hnodup : (es.map Prod.fst).Nodup := (hperm.map Prod.fst).nodup_iff.mpr hkeys.nodup
  refine ⟨_, runAll_array (by decide) hitems hnodup, ?_, ?_, ?_, ?_⟩
  · rw [Table.get_set_ne _ _ _ (by decide)]
    exact h.version
  · rw [Table.get_set_ne _ _ _ (by decide)]
    exact h.units
  · rw [Table.get_set_ne _ _ _ (by decide)]
    exact h.autostart
  · rw [Table.get_set_self]
    exact .concat hregions (regionOf_keys hkeys hperm)

end Steps

/-! ### Runs over sections -/

/-- The last section of a unit or of a control protocol is that of the last unit. -/
theorem unit_of_sections {us : List UnitEntry} {secs : List Section} {id logMask : UInt32}
    {exec : Text} {args : List Text}
    (h : secs ++ [.unit id exec args logMask] = us.flatMap UnitEntry.sections) :
  ∃ us', us = us' ++ [{ id, exec, args, logMask, control := none }] ∧
    secs = us'.flatMap UnitEntry.sections
  := by
  induction us using List.reverseRecOn with
  | nil => exact absurd h (by simp)
  | append_singleton us u _ =>
      obtain ⟨uid, uexec, uargs, umask, control⟩ := u
      rw [List.flatMap_append, List.flatMap_singleton, UnitEntry.sections] at h
      cases control with
      | none =>
          obtain ⟨hsecs, hunit⟩ := List.append_inj' h rfl
          cases hunit
          exact ⟨us, rfl, hsecs⟩
      | some c =>
          rw [Option.map_some, Option.toList_some,
            List.append_cons (us.flatMap UnitEntry.sections)] at h
          obtain ⟨_, hunit⟩ := List.append_inj' h rfl
          cases hunit

theorem control_of_sections {us : List UnitEntry} {secs : List Section} {c : UnitControl}
    (h : secs ++ [.control c] = us.flatMap UnitEntry.sections) :
  ∃ us' u, us = us' ++ [{ u with control := some c }] ∧ u.control = none ∧
    secs = (us' ++ [u]).flatMap UnitEntry.sections
  := by
  induction us using List.reverseRecOn with
  | nil => exact absurd h (by simp)
  | append_singleton us u _ =>
      obtain ⟨uid, uexec, uargs, umask, control⟩ := u
      rw [List.flatMap_append, List.flatMap_singleton, UnitEntry.sections] at h
      cases control with
      | none =>
          obtain ⟨_, hunit⟩ := List.append_inj' h rfl
          cases hunit
      | some c' =>
          rw [Option.map_some, Option.toList_some,
            List.append_cons (us.flatMap UnitEntry.sections)] at h
          obtain ⟨hsecs, hunit⟩ := List.append_inj' h rfl
          cases hunit
          refine ⟨us, ⟨uid, uexec, uargs, umask, none⟩, rfl, rfl, ?_⟩
          rw [hsecs, List.flatMap_append, List.flatMap_singleton]
          rfl

section Filter

variable {secs : List Section} {sec : Section} {rest : List Section}

theorem filter_kind_of_eq (kind : Kind) (hkind : sec.kind = kind)
    (h : (secs ++ [sec]).filter (fun sec => sec.kind = kind) = rest) :
  secs.filter (fun sec => sec.kind = kind) ++ [sec] = rest
  := by
  have hsec : [sec].filter (fun sec => sec.kind = kind) = [sec] := by
    rw [List.filter_eq_self]
    intro sec' hmem
    rw [List.mem_singleton.mp hmem, hkind, decide_eq_true rfl]
  rwa [List.filter_append, hsec] at h

theorem filter_kind_of_ne (kind : Kind) (hkind : sec.kind ≠ kind)
    (h : (secs ++ [sec]).filter (fun sec => sec.kind = kind) = rest) :
  secs.filter (fun sec => sec.kind = kind) = rest
  := by
  have hsec : [sec].filter (fun sec => sec.kind = kind) = [] := by
    rw [List.filter_eq_nil_iff]
    intro sec' hmem
    rwa [List.mem_singleton.mp hmem, decide_eq_true_eq]
  rwa [List.filter_append, hsec, List.append_nil] at h

end Filter

/-- Behind sections a document has what they say. -/
theorem runAll_says {secs : List Section} {stmts : List Stmt} (h : Says secs stmts)
    {us : List UnitEntry} {autostart : Option UInt32} {rs : List ExpectedRegion}
    (hunits : secs.filter (fun sec => sec.kind = .units) = us.flatMap UnitEntry.sections)
    (hauto : secs.filter (fun sec => sec.kind = .autostart) = autostart.toList.map .autostart)
    (hregions : secs.filter (fun sec => sec.kind = .regions) = rs.map .region)
    (hwell : ∀ u ∈ us, u.WellFormed) {doc : Doc} (hdoc : Content doc.root [] none []) :
  ∃ doc', Stmt.runAll doc stmts = .ok doc' ∧ Content doc'.root us autostart rs
  := by
  induction h generalizing us autostart rs with
  | nil =>
      have hus : us = [] := by
        cases us with
        | nil => rfl
        | cons u us => cases hunits
      have hstart : autostart = none := by
        cases autostart with
        | none => rfl
        | some id => cases hauto
      obtain rfl : rs = [] := List.map_eq_nil_iff.mp hregions.symm
      subst hus hstart
      exact ⟨doc, rfl, hdoc⟩
  | @concat secs stmts sec keys es _ hkeys hperm ih =>
      cases sec with
      | unit id exec args logMask =>
          have hauto' := filter_kind_of_ne .autostart (by rintro ⟨⟩) hauto
          have hregions' := filter_kind_of_ne .regions (by rintro ⟨⟩) hregions
          obtain ⟨us, rfl, hsecs⟩ := unit_of_sections (filter_kind_of_eq .units rfl hunits)
          obtain ⟨doc', hrun, hcontent⟩ :=
            ih hsecs hauto' hregions' fun u hu => hwell u (List.mem_append_left _ hu)
          have hexec := (hwell _ (List.mem_append_right us List.mem_cons_self)).exec
          rw [Stmt.runAll_append, hrun]
          exact hcontent.unit hkeys hperm hexec
      | control c =>
          have hauto' := filter_kind_of_ne .autostart (by rintro ⟨⟩) hauto
          have hregions' := filter_kind_of_ne .regions (by rintro ⟨⟩) hregions
          obtain ⟨us, u, rfl, hnone, hsecs⟩ :=
            control_of_sections (filter_kind_of_eq .units rfl hunits)
          have hu := hwell _ (List.mem_append_right us List.mem_cons_self)
          have hbare : ∀ u' ∈ us ++ [u], u'.WellFormed := by
            intro u' hu'
            rcases List.mem_append.mp hu' with hu' | hu'
            · exact hwell u' (List.mem_append_left _ hu')
            · rw [List.mem_singleton.mp hu']
              refine ⟨hu.exec, ?_⟩
              intro c' hc'
              rw [hnone] at hc'
              cases hc'
          obtain ⟨doc', hrun, hcontent⟩ := ih hsecs hauto' hregions' hbare
          rw [Stmt.runAll_append, hrun]
          exact hcontent.control hnone hkeys hperm (hu.game c rfl)
      | autostart id =>
          have hunits' := filter_kind_of_ne .units (by rintro ⟨⟩) hunits
          have hregions' := filter_kind_of_ne .regions (by rintro ⟨⟩) hregions
          have hstart := filter_kind_of_eq .autostart rfl hauto
          cases autostart with
          | none => exact absurd hstart (by simp)
          | some id' =>
              obtain ⟨hnil, hid⟩ :=
                List.append_inj' (show _ = [] ++ [Section.autostart id'] from hstart) rfl
              cases hid
              obtain ⟨doc', hrun, hcontent⟩ :=
                ih hunits' (show _ = (none : Option UInt32).toList.map _ from hnil) hregions' hwell
              rw [Stmt.runAll_append, hrun]
              exact hcontent.start hkeys hperm
      | region r =>
          have hunits' := filter_kind_of_ne .units (by rintro ⟨⟩) hunits
          have hauto' := filter_kind_of_ne .autostart (by rintro ⟨⟩) hauto
          have hlast := filter_kind_of_eq .regions rfl hregions
          induction rs using List.reverseRecOn with
          | nil => exact absurd hlast (by simp)
          | append_singleton rs r' _ =>
              rw [List.map_append, List.map_singleton] at hlast
              obtain ⟨hfirst, hr⟩ := List.append_inj' hlast rfl
              cases hr
              obtain ⟨doc', hrun, hcontent⟩ := ih hunits' hauto' hfirst hwell
              rw [Stmt.runAll_append, hrun]
              exact hcontent.region hkeys hperm

/-! ### The manifest of a document -/

theorem parseUnits_of_forall₂ {vs : List Value} {us : List UnitEntry}
    (h : List.Forall₂ (fun v u => parseUnit v = .ok u) vs us) (i : Nat) :
  parseUnits i vs = .ok us
  := by
  induction h generalizing i with
  | nil => rfl
  | cons hu _ ih =>
      rw [parseUnits, hu, ih]
      rfl

theorem getUnits_of_lists {table : Table} {us : List UnitEntry}
    (h : Lists (fun v u => parseUnit v = .ok u) (table.get "unit".toList) us) :
  getUnits table = .ok us
  := by
  obtain ⟨items, ⟨hnone, rfl⟩ | hsome, hunits⟩ := h
  · cases hunits
    rw [getUnits, hnone]
  · rw [getUnits, hsome]
    exact parseUnits_of_forall₂ hunits 0

theorem parseRegions_of_forall₂ {vs : List Value} {rs : List ExpectedRegion}
    (h : List.Forall₂ RegionOf vs rs) (i : Nat) {seen : List Text}
    (hnodup : (rs.map ExpectedRegion.name).Nodup) (hseen : ∀ r ∈ rs, r.name ∉ seen)
    (hlen : ∀ r ∈ rs, Text.byteLen r.name ≤ maxRegionName) :
  parseRegions i seen vs = .ok rs
  := by
  induction h generalizing i seen with
  | nil => rfl
  | @cons v r vs rs hr _ ih =>
      obtain ⟨t, rfl, hname, hversion⟩ := hr
      rw [List.map_cons, List.nodup_cons] at hnodup
      have hrest : parseRegions (i + 1) (r.name :: seen) vs = .ok rs := by
        apply ih _ hnodup.2
        · intro r' hr' hmem
          rcases List.mem_cons.mp hmem with heq | hmem
          · apply hnodup.1
            rw [← heq]
            exact List.mem_map_of_mem hr'
          · exact hseen r' (List.mem_cons_of_mem r hr') hmem
        · exact fun r' hr' => hlen r' (List.mem_cons_of_mem r hr')
      have hshort : ¬ Text.byteLen r.name > maxRegionName :=
        Nat.not_lt.mpr (hlen r List.mem_cons_self)
      simp only [parseRegions, Value.asTable, orFault, Res.ok_bind, hname, hversion,
        Res.failIf_of_not hshort, Res.failIf_of_not (hseen r List.mem_cons_self), hrest,
        Res.pure_eq]

theorem getRegions_of_lists {table : Table} {rs : List ExpectedRegion}
    (h : Lists RegionOf (table.get "expected_region".toList) rs)
    (hnodup : (rs.map ExpectedRegion.name).Nodup)
    (hlen : ∀ r ∈ rs, Text.byteLen r.name ≤ maxRegionName) :
  getRegions table = .ok rs
  := by
  obtain ⟨items, ⟨hnone, rfl⟩ | hsome, hregions⟩ := h
  · cases hregions
    rw [getRegions, hnone]
  · rw [getRegions, hsome]
    exact parseRegions_of_forall₂ hregions 0 hnodup (fun _ _ => List.not_mem_nil) hlen

theorem getAutostart_of_starts {table : Table} {us : List UnitEntry} {autostart : Option UInt32}
    (h : Starts (table.get "autostart".toList) autostart)
    (hunit : ∀ id, autostart = some id → ∃ u ∈ us, u.id = id) :
  getAutostart table us = .ok autostart
  := by
  rw [getAutostart]
  generalize table.get "autostart".toList = v at h ⊢
  cases h with
  | none => rfl
  | @some t id hid =>
      obtain ⟨u, hu, rfl⟩ := hunit id rfl
      have hany : ¬ us.any (fun u' => u'.id == u.id) = false := by
        rw [Bool.not_eq_false, List.any_eq_true]
        exact ⟨u, hu, beq_iff_eq.mpr rfl⟩
      simp only [Value.asTable, orFault, Res.ok_bind, hid, Res.failIf_of_not hany, Res.pure_eq]

/-- Ids that are their indices are dense. -/
theorem denseFrom_of_ids {us : List UnitEntry} {want : Nat}
    (h : ∀ i (u : UnitEntry), us[i]? = some u → u.id.toNat = want + i) :
  denseFrom want (us.map UnitEntry.id) = true
  := by
  induction us generalizing want with
  | nil => rfl
  | cons u us ih =>
      have hid : u.id.toNat = want := h 0 u rfl
      rw [List.map_cons, denseFrom, Bool.and_eq_true, beq_iff_eq]
      constructor
      · rw [← hid, UInt32.ofNat_toNat]
      · apply ih
        intro i u' hu'
        rw [h (i + 1) u' hu']
        omega

/-- Units that are sorted by their ids, which are apart, are what any order of them is sorted
to. -/
theorem insertionSort_of_ids {us units : List UnitEntry} (hperm : us.Perm units)
    (hids : ∀ i (u : UnitEntry), units[i]? = some u → u.id.toNat = i) :
  us.insertionSort (fun a b => a.id ≤ b.id) = units
  := by
  have hsorted : units.Pairwise fun a b => a.id ≤ b.id := by
    rw [List.pairwise_iff_getElem]
    intro i j hi hj hij
    rw [UInt32.le_iff_toNat_le, hids i _ (List.getElem?_eq_getElem hi),
      hids j _ (List.getElem?_eq_getElem hj)]
    exact Nat.le_of_lt hij
  have hperm' := (List.perm_insertionSort (fun a b : UnitEntry => a.id ≤ b.id) us).trans hperm
  apply List.Perm.eq_of_pairwise _ _ hsorted hperm'
  · intro a b ha hb hab hba
    have hid : a.id = b.id := UInt32.le_antisymm hab hba
    obtain ⟨i, hi⟩ := List.mem_iff_getElem?.mp (hperm'.mem_iff.mp ha)
    obtain ⟨j, hj⟩ := List.mem_iff_getElem?.mp hb
    have hindex := hids i a hi
    rw [hid, hids j b hj] at hindex
    rw [← hindex, hj] at hi
    exact (Option.some.inj hi).symm
  · have : Std.Total fun a b : UnitEntry => a.id ≤ b.id := ⟨fun a b => Std.Total.total a.id b.id⟩
    have : IsTrans UnitEntry fun a b => a.id ≤ b.id := ⟨fun a b c => UInt32.le_trans⟩
    exact List.pairwise_insertionSort _ us

/-- A document that has what a manifest says is read to the manifest. -/
theorem parseTable_of_content {root : Table} {us : List UnitEntry} {m : BootManifest}
    (hm : m.WellFormed) (hperm : us.Perm m.units)
    (h : Content root us m.autostartUnit m.expectedRegions) :
  parseTable root = .ok m
  := by
  have hversion : checkVersion root = .ok () := by
    rw [checkVersion, h.version]
    rfl
  have hsort := insertionSort_of_ids hperm hm.ids
  have hids : (us.map UnitEntry.id).insertionSort (· ≤ ·) = m.units.map UnitEntry.id := by
    rw [← hsort]
    apply Eq.symm
    apply List.map_insertionSort
    intro a _ b _
    rfl
  have hdense : ¬ denseFrom 0 (m.units.map UnitEntry.id) = false := by
    rw [Bool.not_eq_false]
    apply denseFrom_of_ids
    intro i u hu
    rw [hm.ids i u hu, Nat.zero_add]
  have hauto : getAutostart root m.units = .ok m.autostartUnit := by
    apply getAutostart_of_starts h.autostart
    intro id hid
    have hlt := hm.autostart id hid
    have hu := List.getElem?_eq_getElem hlt
    exact ⟨_, List.mem_of_getElem? hu, UInt32.toNat_inj.mp (hm.ids _ _ hu)⟩
  have hregions := getRegions_of_lists h.regions hm.names hm.lengths
  simp only [parseTable, hversion, Res.ok_bind, getUnits_of_lists h.units, hids,
    Res.failIf_of_not hdense, hsort, hauto, hregions, Res.pure_eq]

/-- However a well-formed manifest is written, it is parsed to itself. -/
theorem parse_rendering (dbg : Bool) {m : BootManifest} {text : Text} (hm : m.WellFormed)
    (r : Rendering m text) :
  parse dbg text = .ok m
  := by
  have hversion : Content
      (Doc.mk [("boot_toml_version".toList, .int (1 : Nat))] []).root [] none [] :=
    ⟨rfl, ⟨[], .inl ⟨rfl, rfl⟩, .nil⟩, .none, ⟨[], .inl ⟨rfl, rfl⟩, .nil⟩⟩
  have hwell : ∀ u ∈ r.units, u.WellFormed :=
    fun u hu => hm.units u (r.permuted.mem_iff.mp hu)
  obtain ⟨doc, hrun, hcontent⟩ :=
    runAll_says r.spoken r.unitSecs r.autostartSecs r.regionSecs hwell hversion
  have hstmts : Stmt.runAll { root := [], curPath := [] } r.stmts = .ok doc := by
    rw [← Stmt.runAll_filter, r.said]
    exact hrun
  rw [parse, parseDoc_renders dbg r.rendered hstmts]
  exact parseTable_of_content hm r.permuted hcontent

/-! ### A manifest and its text -/

theorem blanks_space : Text.Blanks [' ']
  := by
  intro c hc
  rw [List.mem_singleton.mp hc]
  rfl

theorem comment_nil : Comment [] := fun _ h => (by cases h)

theorem comment_hash (t : Text) : Comment ('#' :: t) := fun _ h => (Option.some.inj h).symm

/-- A line without blanks around it. -/
theorem renders_written {stmt : Stmt} {t : Text} (h : Written stmt t) :
  Renders stmt t
  := by
  have hline : [] ++ (t ++ []) ++ [] = t := by
    rw [List.append_nil, List.append_nil, List.nil_append]
  rw [← hline]
  exact .mk Text.blanks_nil h Text.blanks_nil comment_nil

/-- A line of a key and its value. -/
def entryLine (key t : Text) : Text := key ++ ([' '] ++ '=' :: ([' '] ++ t))

/-- A string between quotes. -/
def quotes (s : Text) : Text := '"' :: (s ++ ['"'])

theorem renders_entry {key t : Text} {v : Value} (hkey : validKey key = true) (h : Spells v t) :
  Renders (.entry key v) (entryLine key t)
  := renders_written (.entry hkey blanks_space blanks_space h)

/-- The header of an array of tables. -/
theorem renders_array {key : Text} (hkey : validKey key = true) :
  Renders (.array [] key) ('[' :: '[' :: (key ++ [']', ']']))
  := by
  have hline : ([] : Text) ++ (key ++ []) ++ [']', ']'] = key ++ [']', ']'] := by
    rw [List.append_nil, List.nil_append]
  rw [← hline]
  exact renders_written (.array Text.blanks_nil (.last hkey) Text.blanks_nil)

/-- Neither a quote nor a backslash. -/
def plainChar (c : Char) : Bool := c != '"' && c != '\\'

/-- A string without quotes and backslashes. -/
theorem quoted_plain {s : Text} (h : s.all plainChar = true) :
  Quoted s (quotes s)
  := by
  rw [quotes]
  constructor
  induction s with
  | nil => exact .nil
  | cons c s ih =>
      rw [List.all_cons, Bool.and_eq_true, plainChar, Bool.and_eq_true, bne_iff_ne, bne_iff_ne] at h
      obtain ⟨⟨hquote, hback⟩, hrest⟩ := h
      exact .raw hquote hback (ih hrest)

theorem renders_str {key s : Text} (hkey : validKey key = true) (hs : s.all plainChar = true) :
  Renders (.entry key (.str s)) (entryLine key (quotes s))
  := renders_entry hkey (.str (quoted_plain hs))

/-- One digit. -/
theorem digits_singleton {radix : Nat} {c : Char} (h : (Text.digit radix c).isSome) :
  Text.Digits radix [c]
  := by
  refine ⟨List.cons_ne_nil _ _, fun d hd => ?_⟩
  rw [List.mem_singleton.mp hd]
  exact h

theorem spells_dec {c : Char} (hclean : withoutUnderscores [c] = [c])
    (hdigit : (Text.digit 10 c).isSome) (hfits : Text.Fits (Text.value 10 [c])) :
  Spells (.int (Text.value 10 [c])) [c]
  := by
  apply Spells.int
  · rw [hclean]
    exact .dec (digits_singleton hdigit)
  · exact hfits

theorem renders_dec {key : Text} {c : Char} (hkey : validKey key = true)
    (hclean : withoutUnderscores [c] = [c]) (hdigit : (Text.digit 10 c).isSome)
    (hfits : Text.Fits (Text.value 10 [c])) :
  Renders (.entry key (.int (Text.value 10 [c]))) (entryLine key [c])
  := renders_entry hkey (spells_dec hclean hdigit hfits)

theorem renders_hex {key : Text} {c : Char} (hkey : validKey key = true)
    (hclean : withoutUnderscores ['0', 'x', c] = ['0', 'x', c])
    (hdigit : (Text.digit 16 c).isSome) (hfits : Text.Fits (Text.value 16 [c])) :
  Renders (.entry key (.int (Text.value 16 [c]))) (entryLine key ['0', 'x', c])
  := by
  apply renders_entry hkey
  apply Spells.int
  · rw [hclean]
    exact .hex (.inl rfl) (digits_singleton hdigit)
  · exact hfits

/-- Two units, of which one has the characters of comments, strings and arrays in the path of its
program and is controlled, and a region. -/
def sampleManifest : BootManifest where
  autostartUnit := some 1
  units :=
    [{ id := 0
       exec := "/a#\"]".toList
       args := []
       logMask := 0x1F
       control := some
         { protocol := refworkCtl
           protoVersion := 1
           gameDev := some "/dev/vda".toList
           gameSource := some .pvBlk } },
      { id := 1, exec := "/b".toList, args := ["x".toList, "y,".toList], logMask := 3
        control := none }]
  expectedRegions := [{ name := "save".toList, layoutVersion := 2 }]

/-- The second unit comes first, and a region stands between the sections of the other one. -/
def sampleLines : List Text :=
  ["boot_toml_version = 1 # v".toList,
    "[[unit]]".toList,
    entryLine "id".toList ['1'],
    entryLine "exec".toList (quotes "/b".toList),
    entryLine "args".toList "[\"x\", \"y,\"]".toList,
    entryLine "log_mask".toList ['0', 'x', '3'],
    "[[ unit ]]".toList,
    "\texec=\"/a#\\\"]\"# \"".toList,
    entryLine "id".toList ['0', 'x', '0'],
    "[[expected_region]]".toList,
    entryLine "layout_version".toList ['2'],
    entryLine "name".toList (quotes "save".toList),
    "[unit.control]".toList,
    entryLine "protocol".toList (quotes refworkCtl),
    entryLine "proto_version".toList ['1'],
    entryLine "game_dev".toList (quotes "/dev/vda".toList),
    entryLine "game_source".toList (quotes "pv-blk".toList),
    "[autostart]".toList,
    entryLine "unit".toList ['1'],
    []]

def sampleText : Text := ['\n'].intercalate sampleLines

/-- What the lines say that say something. -/
def sampleBody : List Stmt :=
  [.array [] "unit".toList, .entry "id".toList (number 1), .entry "exec".toList (.str "/b".toList),
    .entry "args".toList (.array [.str "x".toList, .str "y,".toList]),
    .entry "log_mask".toList (number 3),
    .array [] "unit".toList, .entry "exec".toList (.str "/a#\"]".toList),
    .entry "id".toList (number 0),
    .array [] "expected_region".toList, .entry "layout_version".toList (number 2),
    .entry "name".toList (.str "save".toList),
    .table ["unit".toList, "control".toList], .entry "protocol".toList (.str refworkCtl),
    .entry "proto_version".toList (number 1), .entry "game_dev".toList (.str "/dev/vda".toList),
    .entry "game_source".toList (.str "pv-blk".toList),
    .table ["autostart".toList], .entry "unit".toList (number 1)]

theorem sampleManifest_wellFormed : sampleManifest.WellFormed
  := by
  have hids : ∀ i (u : UnitEntry), sampleManifest.units[i]? = some u → u.id.toNat = i := by
    intro i u hu
    match i, hu with
    | 0, hu => cases hu; rfl
    | 1, hu => cases hu; rfl
  refine ⟨hids, find?_of_ids hids, ?_, ?_, by decide, by decide⟩
  · intro u hu
    obtain rfl | hu := List.mem_cons.mp hu
    · exact ⟨rfl, fun c hc _ => by cases hc; rfl⟩
    · rw [List.mem_singleton.mp hu]
      exact ⟨rfl, fun _ h => (by cases h)⟩
  · rintro id ⟨⟩
    decide

theorem sample_exec : Quoted "/a#\"]".toList "\"/a#\\\"]\"".toList
  := by
  refine @Quoted.mk "/a#\"]".toList "/a#\\\"]".toList ?_
  apply Escaped.raw (by decide) (by decide)
  apply Escaped.raw (by decide) (by decide)
  apply Escaped.raw (by decide) (by decide)
  apply Escaped.escape (by decide)
  apply Escaped.raw (by decide) (by decide)
  exact .nil

theorem spells_args :
  Spells (.array [.str "x".toList, .str "y,".toList]) "[\"x\", \"y,\"]".toList
  := by
  have hitems : Items ["x".toList, "y,".toList]
      ("\"x\"".toList ++ ([] ++ ',' :: ([' '] ++ "\"y,\"".toList))) :=
    .cons (quoted_plain (by decide)) Text.blanks_nil blanks_space (by decide)
      (.last (quoted_plain (by decide)))
  exact .array Text.blanks_nil hitems Text.blanks_nil

/-- What the lines say. -/
theorem sampleLines_renders :
  List.Forall₂ Renders
    (.entry "boot_toml_version".toList (.int (1 : Nat)) :: (sampleBody ++ [.blank])) sampleLines
  := by
  refine .cons ?_ (.cons ?_ (.cons ?_ (.cons ?_ (.cons ?_ (.cons ?_ (.cons ?_ (.cons ?_
    (.cons ?_ (.cons ?_ (.cons ?_ (.cons ?_ (.cons ?_ (.cons ?_ (.cons ?_ (.cons ?_ (.cons ?_
      (.cons ?_ (.cons ?_ (.cons ?_ .nil)))))))))))))))))))
  · show Renders _ ([] ++ ("boot_toml_version = 1".toList ++ [' ']) ++ ['#', ' ', 'v'])
    refine .mk Text.blanks_nil ?_ blanks_space (comment_hash _)
    show Written _ ("boot_toml_version".toList ++ ([' '] ++ '=' :: ([' '] ++ ['1'])))
    exact .entry (by decide) blanks_space blanks_space (spells_dec (c := '1') rfl rfl (by decide))
  · exact renders_array (by decide)
  · exact renders_dec (c := '1') (by decide) rfl rfl (by decide)
  · exact renders_str (by decide) (by decide)
  · exact renders_entry (by decide) spells_args
  · exact renders_hex (c := '3') (by decide) rfl rfl (by decide)
  · show Renders _ ([] ++ ("[[ unit ]]".toList ++ []) ++ [])
    refine .mk Text.blanks_nil ?_ Text.blanks_nil comment_nil
    show Written _ ('[' :: '[' :: ([' '] ++ ("unit".toList ++ [' ']) ++ [']', ']']))
    exact .array blanks_space (.last (by decide)) blanks_space
  · show Renders _ (['\t'] ++ ("exec=\"/a#\\\"]\"".toList ++ []) ++ ['#', ' ', '"'])
    refine .mk (fun c hc => ?_) ?_ Text.blanks_nil (comment_hash _)
    · rw [List.mem_singleton.mp hc]
      rfl
    · show Written _ ("exec".toList ++ ([] ++ '=' :: ([] ++ "\"/a#\\\"]\"".toList)))
      exact .entry (by decide) Text.blanks_nil Text.blanks_nil (.str sample_exec)
  · exact renders_hex (c := '0') (by decide) rfl rfl (by decide)
  · exact renders_array (by decide)
  · exact renders_dec (c := '2') (by decide) rfl rfl (by decide)
  · exact renders_str (by decide) (by decide)
  · show Renders _ ('[' :: ([] ++ ("unit.control".toList ++ []) ++ [']']))
    refine renders_written (.table Text.blanks_nil ?_ Text.blanks_nil)
    show Dotted _ ("unit".toList ++ ([] ++ '.' :: ([] ++ "control".toList)))
    exact .cons (by decide) Text.blanks_nil Text.blanks_nil (.last (by decide))
  · exact renders_str (by decide) (by decide)
  · exact renders_dec (c := '1') (by decide) rfl rfl (by decide)
  · exact renders_str (by decide) (by decide)
  · exact renders_str (by decide) (by decide)
  · show Renders _ ('[' :: ([] ++ ("autostart".toList ++ []) ++ [']']))
    exact renders_written (.table Text.blanks_nil (.last (by decide)) Text.blanks_nil)
  · exact renders_dec (c := '1') (by decide) rfl rfl (by decide)
  · exact renders_written .blank

/-- The sections in the order of the text. -/
def sampleSections : List Section :=
  [.unit 1 "/b".toList ["x".toList, "y,".toList] 3, .unit 0 "/a#\"]".toList [] 0x1F,
    .region { name := "save".toList, layoutVersion := 2 },
    .control
      { protocol := refworkCtl
        protoVersion := 1
        gameDev := some "/dev/vda".toList
        gameSource := some .pvBlk },
    .autostart 1]

theorem sampleSections_says :
  Says sampleSections sampleBody
  := .concat (.concat (.concat (.concat (.concat .nil (.unit (.inl rfl) (.inl rfl)) (.refl _))
    (.unit (.inr ⟨rfl, rfl⟩) (.inr ⟨rfl, rfl⟩)) (.swap _ _ _)) .region (.swap _ _ _))
    .control (.refl _)) .autostart (.refl _)

/-- The units stand in another order than their ids, and some keys in another order than the parser
looks for them. -/
def sampleRendering : Rendering sampleManifest sampleText where
  units := sampleManifest.units.reverse
  secs := sampleSections
  body := sampleBody
  stmts := .entry "boot_toml_version".toList (.int (1 : Nat)) :: (sampleBody ++ [.blank])
  permuted := List.reverse_perm _
  unitSecs := rfl
  autostartSecs := rfl
  regionSecs := rfl
  spoken := sampleSections_says
  said := rfl
  rendered := by
    rw [sampleText, List.splitOn_intercalate '\n' (by decide) (by decide)]
    exact sampleLines_renders

theorem parse_rendering_sample :
  parse true sampleText = .ok sampleManifest
  := parse_rendering true sampleManifest_wellFormed sampleRendering

end Boot

end Agent
