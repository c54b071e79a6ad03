import DetGuest.Agent.Tiny
import DetGuest.Wire.Manifest
import Mathlib.Data.List.Sort

/-!
# The boot manifest

The agent parses and validates `boot.toml`: the units with their ids, the unit to start, and the
regions that gate readiness.
-/

namespace Agent

namespace Boot

open Wire Tiny

/-! ### The manifest -/

/-- The version of the format. -/
def bootTomlMajor : Int := 1

/-- Where the game bytes come from. -/
inductive GameSource where
  | pvBlk
  deriving DecidableEq, Repr

/-- The control protocol of a unit. -/
structure UnitControl where
  protocol : Text
  protoVersion : UInt32
  gameDev : Option Text
  gameSource : Option GameSource
  deriving DecidableEq, Repr

/-- A unit that can be started. -/
structure UnitEntry where
  id : UInt32
  exec : Text
  args : List Text
  logMask : UInt32
  control : Option UnitControl
  deriving DecidableEq, Repr

/-- A region that gates readiness. -/
structure ExpectedRegion where
  name : Text
  layoutVersion : UInt32
  deriving DecidableEq, Repr

/-- The boot manifest. -/
structure BootManifest where
  autostartUnit : Option UInt32
  units : List UnitEntry
  expectedRegions : List ExpectedRegion
  deriving DecidableEq, Repr

/-- The unit with an id. -/
def BootManifest.unit (m : BootManifest) (id : UInt32) : Option UnitEntry :=
  m.units.find? fun u => u.id == id

/-! ### Faults -/

/-- What is wrong with the control protocol of a unit. -/
inductive ControlFault where
  | notTable
  | missingProtocol
  | missingProtoVersion
  | gameDevRequired
  | unknownGameSource (other : Text)
  | gameSourceNotString
  deriving DecidableEq, Repr

/-- What is wrong with a unit. -/
inductive UnitFault where
  | notTable
  | missingId
  | idOutOfRange
  | missingExec
  | execNotAbsolute (exec : Text)
  | argsNotArray
  | argsNotStrings
  | logMaskNotU32
  | control (e : ControlFault)
  deriving DecidableEq, Repr

/-- What is wrong with an expected region. -/
inductive RegionFault where
  | notTable
  | missingName
  | nameTooLong
  | missingLayoutVersion
  deriving DecidableEq, Repr

/-- What is wrong with a boot manifest. -/
inductive BootFault where
  | parseError (e : LineError)
  | notTable
  | missingVersion
  | versionNotInteger
  | unknownMajor (version : Int)
  | unitNotArray
  | unit (i : Nat) (e : UnitFault)
  | idsNotDense (ids : List UInt32)
  | autostartNotTable
  | autostartMissingUnit
  | autostartNoUnit (id : UInt32)
  | regionsNotArray
  | region (i : Nat) (e : RegionFault)
  | duplicateRegion (name : Text)
  deriving DecidableEq, Repr

/-- The text of a fault of a control protocol, behind the path of the unit. -/
def ControlFault.message (debug : Debug) : ControlFault → String
  | .notTable => ".control must be a table"
  | .missingProtocol => ".control: missing protocol"
  | .missingProtoVersion => ".control: missing u32 proto_version"
  | .gameDevRequired => ".control: game_dev required for refwork-ctl (§7.2)"
  | .unknownGameSource other =>
      s!".control: unknown game_source {debug.text other} (v1 knows \"pv-blk\")"
  | .gameSourceNotString => ".control: game_source must be a string"

/-- The text of a fault of a unit, behind its path. -/
def UnitFault.message (debug : Debug) : UnitFault → String
  | .notTable => " must be a table"
  | .missingId => ": missing integer id"
  | .idOutOfRange => ": id out of range"
  | .missingExec => ": missing string exec"
  | .execNotAbsolute exec =>
      s!": exec must be an absolute path inside the image (got {debug.text exec})"
  | .argsNotArray => ": args must be an array"
  | .argsNotStrings => ": args must be strings"
  | .logMaskNotU32 => ": log_mask must be a u32"
  | .control e => e.message debug

/-- The text of a fault of an expected region, behind its path. -/
def RegionFault.message : RegionFault → String
  | .notTable => " must be a table"
  | .missingName => ": missing string name"
  | .nameTooLong => ": name exceeds the 56-byte manifest cap"
  | .missingLayoutVersion => ": missing u32 layout_version"

/-- The text of a fault. -/
def BootFault.message (debug : Debug) : BootFault → String
  | .parseError e => s!"parse error: {e.message debug}"
  | .notTable => "top level must be a table"
  | .missingVersion => "missing required boot_toml_version"
  | .versionNotInteger => "boot_toml_version must be an integer"
  | .unknownMajor version =>
      s!"unknown boot_toml_version major {version} (agent speaks {bootTomlMajor})"
  | .unitNotArray => "unit must be an array of tables"
  | .unit i e => s!"unit[{i}]{e.message debug}"
  | .idsNotDense ids => s!"unit ids must be dense from 0 and unique (got {ids})"
  | .autostartNotTable => "autostart must be a table"
  | .autostartMissingUnit => "autostart: missing u32 unit"
  | .autostartNoUnit id => s!"autostart references nonexistent unit id {id}"
  | .regionsNotArray => "expected_region must be an array of tables"
  | .region i e => s!"expected_region[{i}]{e.message}"
  | .duplicateRegion name => s!"duplicate expected_region name {debug.text name}"

/-! ### Parsing -/

section Parsing

variable {ε α : Type}

/-- `Option::ok_or`. -/
def orFault (x : Option α) (e : ε) : Res ε α :=
  match x with
  | some a => .ok a
  | none => .err e

/-- A number of the range of `u32`. -/
def inU32 (v : Int) : Bool := 0 ≤ v && v ≤ 0xFFFFFFFF

/-- `as u32` on a number of its range. -/
def asU32 (v : Int) : UInt32 := UInt32.ofNat v.toNat

/-- An integer of the range of `u32` under a key. -/
def getU32 (t : Table) (key : Text) : Option UInt32 :=
  (((t.get key).bind Value.asInteger).filter inU32).map asU32

/-- A string under a key. -/
def getStr (t : Table) (key : Text) : Option Text := (t.get key).bind Value.asStr

/-- The strings of an array. -/
def parseArgs : List Value → Res UnitFault (List Text)
  | [] => .ok []
  | v :: vs => do
      let arg ← orFault v.asStr .argsNotStrings
      let args ← parseArgs vs
      pure (arg :: args)

/-- The source of the game. -/
def parseGameSource (ct : Table) : Res ControlFault (Option GameSource) :=
  match ct.get "game_source".toList with
  | none => .ok none
  | some v =>
      match v.asStr with
      | some s =>
          if s = "pv-blk".toList then .ok (some .pvBlk) else .err (.unknownGameSource s)
      | none => .err .gameSourceNotString

/-- The protocol whose units need a game. -/
def refworkCtl : Text := "refwork-ctl".toList

/-- The control protocol of a unit. -/
def parseControl (c : Value) : Res ControlFault UnitControl := do
  let ct ← orFault c.asTable .notTable
  let protocol ← orFault (getStr ct "protocol".toList) .missingProtocol
  let protoVersion ← orFault (getU32 ct "proto_version".toList) .missingProtoVersion
  let gameDev := getStr ct "game_dev".toList
  Res.failIf (protocol = refworkCtl ∧ gameDev = none) .gameDevRequired
  let gameSource ← parseGameSource ct
  pure { protocol, protoVersion, gameDev, gameSource }

/-- The arguments of a unit. -/
def getArgs (t : Table) : Res UnitFault (List Text) :=
  match t.get "args".toList with
  | none => .ok []
  | some a => do
      let items ← orFault a.asArray .argsNotArray
      parseArgs items

/-- The log mask of a unit. -/
def getLogMask (t : Table) : Res UnitFault UInt32 :=
  match t.get "log_mask".toList with
  | none => .ok 0x1F
  | some _ => orFault (getU32 t "log_mask".toList) .logMaskNotU32

/-- The control protocol of a unit, if it has one. -/
def getControl (t : Table) : Res UnitFault (Option UnitControl) :=
  match t.get "control".toList with
  | none => .ok none
  | some c => do
      let control ← (parseControl c).mapErr .control
      pure (some control)

/-- A unit. -/
def parseUnit (u : Value) : Res UnitFault UnitEntry := do
  let t ← orFault u.asTable .notTable
  let id ← orFault ((t.get "id".toList).bind Value.asInteger) .missingId
  Res.failIf (inU32 id = false) .idOutOfRange
  let exec ← orFault (getStr t "exec".toList) .missingExec
  Res.failIf (exec.head? ≠ some '/') (.execNotAbsolute exec)
  let args ← getArgs t
  let logMask ← getLogMask t
  let control ← getControl t
  pure { id := asU32 id, exec, args, logMask, control }

/-- The units from the index `i` on. -/
def parseUnits (i : Nat) : List Value → Res BootFault (List UnitEntry)
  | [] => .ok []
  | u :: us => do
      let unit ← (parseUnit u).mapErr (.unit i)
      let units ← parseUnits (i + 1) us
      pure (unit :: units)

/-- The units of a document. -/
def getUnits (table : Table) : Res BootFault (List UnitEntry) :=
  match table.get "unit".toList with
  | none => .ok []
  | some v => do
      let items ← orFault v.asArray .unitNotArray
      parseUnits 0 items

/-- Whether ids, in their order, are the numbers from `want` on. -/
def denseFrom (want : Nat) : List UInt32 → Bool
  | [] => true
  | got :: ids => got == UInt32.ofNat want && denseFrom (want + 1) ids

/-- The unit to start. -/
def getAutostart (table : Table) (units : List UnitEntry) : Res BootFault (Option UInt32) :=
  match table.get "autostart".toList with
  | none => .ok none
  | some a => do
      let t ← orFault a.asTable .autostartNotTable
      let id ← orFault (getU32 t "unit".toList) .autostartMissingUnit
      Res.failIf (units.any (fun u => u.id == id) = false) (.autostartNoUnit id)
      pure (some id)

/-- The expected regions from the index `i` on, behind those with the names `seen`. -/
def parseRegions (i : Nat) (seen : List Text) : List Value → Res BootFault (List ExpectedRegion)
  | [] => .ok []
  | r :: rs => do
      let t ← orFault r.asTable (.region i .notTable)
      let name ← orFault (getStr t "name".toList) (.region i .missingName)
      Res.failIf (Text.byteLen name > maxRegionName) (.region i .nameTooLong)
      Res.failIf (name ∈ seen) (.duplicateRegion name)
      let layoutVersion ←
        orFault (getU32 t "layout_version".toList) (.region i .missingLayoutVersion)
      let regions ← parseRegions (i + 1) (name :: seen) rs
      pure ({ name, layoutVersion } :: regions)

/-- The expected regions of a document. -/
def getRegions (table : Table) : Res BootFault (List ExpectedRegion) :=
  match table.get "expected_region".toList with
  | none => .ok []
  | some v => do
      let items ← orFault v.asArray .regionsNotArray
      parseRegions 0 [] items

/-- Check the version of the format. -/
def checkVersion (table : Table) : Res BootFault PUnit := do
  let v ← orFault (table.get "boot_toml_version".toList) .missingVersion
  let version ← orFault v.asInteger .versionNotInteger
  Res.failIf (version ≠ bootTomlMajor) (.unknownMajor version)

/-- The manifest of a document. -/
def parseTable (table : Table) : Res BootFault BootManifest := do
  checkVersion table
  let units ← getUnits table
  let ids := (units.map UnitEntry.id).insertionSort (· ≤ ·)
  Res.failIf (denseFrom 0 ids = false) (.idsNotDense ids)
  let units := units.insertionSort fun a b => a.id ≤ b.id
  let autostartUnit ← getAutostart table units
  let expectedRegions ← getRegions table
  pure { autostartUnit, units, expectedRegions }

/-- Parse and validate a boot manifest. -/
def parse (dbg : Bool) (text : Text) : Res BootFault BootManifest := do
  let doc ← (parseDoc dbg text).mapErr .parseError
  let table ← orFault doc.asTable .notTable
  parseTable table

theorem orFault_eq_ok {x : Option α} {e : ε} {a : α} :
  orFault x e = .ok a ↔ x = some a
  := by
  cases x with
  | none => simp [orFault]
  | some b => simp [orFault]

theorem failIf_eq_ok {c : Prop} [Decidable c] {e : ε} {u : PUnit} :
  Res.failIf c e = .ok u ↔ ¬ c
  := Res.failIf_eq_ok

theorem mapErr_eq_ok {ε' : Type} {f : ε → ε'} {x : Res ε α} {a : α} :
  x.mapErr f = .ok a ↔ x = .ok a
  := by
  cases x with
  | ok b => simp
  | err e => simp
  | panic => simp

end Parsing

/-! ### Well-formed manifests -/

/-- A unit as it leaves the parser: its program is an absolute path, and if it speaks the protocol
that needs a game, it has one. -/
structure UnitEntry.WellFormed (u : UnitEntry) : Prop where
  exec : u.exec.head? = some '/'
  game : ∀ c, u.control = some c → c.protocol = refworkCtl → c.gameDev.isSome

/-- A manifest as it leaves the parser. -/
structure BootManifest.WellFormed (m : BootManifest) : Prop where
  ids : ∀ i (u : UnitEntry), m.units[i]? = some u → u.id.toNat = i
  unit : ∀ id, m.unit id = m.units[id.toNat]?
  units : ∀ u ∈ m.units, u.WellFormed
  autostart : ∀ id, m.autostartUnit = some id → id.toNat < m.units.length
  names : (m.expectedRegions.map ExpectedRegion.name).Nodup
  lengths : ∀ r ∈ m.expectedRegions, Text.byteLen r.name ≤ maxRegionName

theorem game_of_parseControl {c : Value} {control : UnitControl}
    (h : parseControl c = .ok control) (hproto : control.protocol = refworkCtl) :
  control.gameDev.isSome
  := by
  simp only [parseControl, Res.bind_eq_ok, orFault_eq_ok, failIf_eq_ok, Res.pure_eq,
    Res.ok.injEq] at h
  obtain ⟨ct, _, protocol, _, protoVersion, _, _, hgame, gameSource, _, rfl⟩ := h
  rw [Option.isSome_iff_ne_none]
  intro hnone
  exact hgame ⟨hproto, hnone⟩

theorem wellFormed_of_parseUnit {v : Value} {u : UnitEntry} (h : parseUnit v = .ok u) :
  u.WellFormed
  := by
  simp only [parseUnit, Res.bind_eq_ok, orFault_eq_ok, failIf_eq_ok, Res.pure_eq,
    Res.ok.injEq, not_not] at h
  obtain ⟨t, _, id, _, _, _, exec, _, _, hexec, args, _, logMask, _, control, hcontrol, rfl⟩ := h
  refine ⟨hexec, ?_⟩
  rintro c rfl hproto
  rw [getControl] at hcontrol
  cases hget : t.get "control".toList with
  | none =>
      rw [hget] at hcontrol
      cases hcontrol
  | some v =>
      simp only [hget, Res.bind_eq_ok, mapErr_eq_ok, Res.pure_eq, Res.ok.injEq,
        Option.some.injEq] at hcontrol
      obtain ⟨control, hparse, rfl⟩ := hcontrol
      exact game_of_parseControl hparse hproto

theorem wellFormed_of_parseUnits {i : Nat} {vs : List Value} {us : List UnitEntry}
    (h : parseUnits i vs = .ok us) :
  ∀ u ∈ us, u.WellFormed
  := by
  induction vs generalizing i us with
  | nil =>
      cases h
      intro u hu
      exact absurd hu List.not_mem_nil
  | cons v vs ih =>
      simp only [parseUnits, Res.bind_eq_ok, mapErr_eq_ok, Res.pure_eq, Res.ok.injEq] at h
      obtain ⟨unit, hunit, units, hunits, rfl⟩ := h
      intro u hu
      rcases List.mem_cons.mp hu with rfl | hu
      · exact wellFormed_of_parseUnit hunit
      · exact ih hunits u hu

theorem wellFormed_of_getUnits {table : Table} {us : List UnitEntry}
    (h : getUnits table = .ok us) :
  ∀ u ∈ us, u.WellFormed
  := by
  rw [getUnits] at h
  cases hget : table.get "unit".toList with
  | none =>
      rw [hget] at h
      cases h
      intro u hu
      exact absurd hu List.not_mem_nil
  | some v =>
      simp only [hget, Res.bind_eq_ok, orFault_eq_ok] at h
      obtain ⟨items, _, hunits⟩ := h
      exact wellFormed_of_parseUnits hunits

/-- Ids that are dense are their indices, taken modulo the range of `u32`. -/
theorem getElem?_of_denseFrom {want : Nat} {ids : List UInt32} (h : denseFrom want ids = true)
    {i : Nat} {id : UInt32} (hid : ids[i]? = some id) :
  id = UInt32.ofNat (want + i)
  := by
  induction ids generalizing want i with
  | nil => cases hid
  | cons got ids ih =>
      rw [denseFrom, Bool.and_eq_true, beq_iff_eq] at h
      obtain ⟨hgot, hrest⟩ := h
      cases i with
      | zero =>
          cases hid
          exact hgot
      | succ i =>
          rw [List.getElem?_cons_succ] at hid
          rw [ih hrest hid]
          congr 1
          omega

/-- Sorted ids that are dense are their indices. -/
theorem toNat_of_dense {ids : List UInt32} (hsorted : ids.Pairwise (· ≤ ·))
    (h : denseFrom 0 ids = true) {i : Nat} {id : UInt32} (hid : ids[i]? = some id) :
  id.toNat = i
  := by
  have hget : ∀ {j : Nat} {x : UInt32}, ids[j]? = some x → x = UInt32.ofNat j := by
    intro j x hx
    have hx' := getElem?_of_denseFrom h hx
    rwa [Nat.zero_add] at hx'
  obtain ⟨hlen, _⟩ := List.getElem?_eq_some_iff.mp hid
  by_cases hi : i < 2 ^ 32
  · rw [hget hid, UInt32.toNat_ofNat_of_lt' hi]
  · -- An id behind the range would wrap to zero, below the id in front of it.
    have hwrap : 2 ^ 32 < ids.length := by omega
    have hone : 1 < ids.length := by omega
    have hle : ids[1] ≤ ids[2 ^ 32] :=
      List.pairwise_iff_getElem.mp hsorted 1 (2 ^ 32) hone hwrap (by decide)
    rw [hget (List.getElem?_eq_getElem hone), hget (List.getElem?_eq_getElem hwrap)] at hle
    exact absurd hle (by decide)

/-- In a list of units whose ids are their indices, the unit of an id is the one at it. -/
theorem find?_of_ids {us : List UnitEntry}
    (h : ∀ i (u : UnitEntry), us[i]? = some u → u.id.toNat = i) (id : UInt32) :
  (us.find? fun u => u.id == id) = us[id.toNat]?
  := by
  cases hat : us[id.toNat]? with
  | some u =>
      have hu : u.id = id := UInt32.toNat_inj.mp (h _ u hat)
      cases hfind : us.find? fun u => u.id == id with
      | none =>
          rw [List.find?_eq_none] at hfind
          have hno := hfind u (List.mem_of_getElem? hat)
          rw [hu] at hno
          simp at hno
      | some v =>
          have hv : v.id = id := by
            have hpred := List.find?_some hfind
            simpa using hpred
          obtain ⟨i, hi⟩ := List.mem_iff_getElem?.mp (List.mem_of_find?_eq_some hfind)
          have hindex := h i v hi
          rw [hv] at hindex
          rw [hindex, hi] at hat
          exact hat
  | none =>
      rw [List.find?_eq_none]
      intro u hu heq
      rw [beq_iff_eq] at heq
      obtain ⟨i, hi⟩ := List.mem_iff_getElem?.mp hu
      have hindex := h i u hi
      rw [heq] at hindex
      rw [hindex, hi] at hat
      cases hat

theorem ids_of_dense {us : List UnitEntry}
    (h : denseFrom 0 ((us.map UnitEntry.id).insertionSort (· ≤ ·)) = true) {i : Nat}
    {u : UnitEntry} (hu : (us.insertionSort fun a b => a.id ≤ b.id)[i]? = some u) :
  u.id.toNat = i
  := by
  have hmap : (us.insertionSort fun a b => a.id ≤ b.id).map UnitEntry.id
      = (us.map UnitEntry.id).insertionSort (· ≤ ·) := by
    apply List.map_insertionSort
    intro a _ b _
    rfl
  have hsorted : ((us.map UnitEntry.id).insertionSort (· ≤ ·)).Pairwise (· ≤ ·) :=
    List.pairwise_insertionSort _ _
  apply toNat_of_dense hsorted h
  rw [← hmap, List.getElem?_map, hu]
  rfl

theorem autostart_of_getAutostart {table : Table} {us : List UnitEntry} {id : UInt32}
    (h : getAutostart table us = .ok (some id)) :
  ∃ u ∈ us, u.id = id
  := by
  rw [getAutostart] at h
  cases hget : table.get "autostart".toList with
  | none =>
      rw [hget] at h
      cases h
  | some a =>
      simp only [hget, Res.bind_eq_ok, orFault_eq_ok, failIf_eq_ok, Res.pure_eq, Res.ok.injEq,
        Option.some.injEq] at h
      obtain ⟨t, _, id', _, _, hany, rfl⟩ := h
      rw [Bool.not_eq_false, List.any_eq_true] at hany
      obtain ⟨u, hu, heq⟩ := hany
      exact ⟨u, hu, beq_iff_eq.mp heq⟩

/-- The names of the regions are new, apart from each other, and short enough. -/
theorem names_of_parseRegions {i : Nat} {seen : List Text} {vs : List Value}
    {rs : List ExpectedRegion} (h : parseRegions i seen vs = .ok rs) :
  (rs.map ExpectedRegion.name).Nodup ∧
    ∀ r ∈ rs, r.name ∉ seen ∧ Text.byteLen r.name ≤ maxRegionName
  := by
  induction vs generalizing i seen rs with
  | nil =>
      cases h
      refine ⟨List.nodup_nil, ?_⟩
      intro r hr
      exact absurd hr List.not_mem_nil
  | cons v vs ih =>
      simp only [parseRegions, Res.bind_eq_ok, orFault_eq_ok, failIf_eq_ok, Res.pure_eq,
        Res.ok.injEq, Nat.not_lt] at h
      obtain ⟨t, _, name, _, _, hlen, _, hnew, version, _, regions, hregions, rfl⟩ := h
      obtain ⟨hnodup, hrest⟩ := ih hregions
      constructor
      · rw [List.map_cons, List.nodup_cons]
        refine ⟨?_, hnodup⟩
        intro hmem
        obtain ⟨r, hr, hname⟩ := List.mem_map.mp hmem
        apply (hrest r hr).1
        rw [hname]
        exact List.mem_cons_self
      · intro r hr
        rcases List.mem_cons.mp hr with rfl | hr
        · exact ⟨hnew, hlen⟩
        · obtain ⟨hfresh, hshort⟩ := hrest r hr
          exact ⟨fun hin => hfresh (List.mem_cons_of_mem name hin), hshort⟩

theorem names_of_getRegions {table : Table} {rs : List ExpectedRegion}
    (h : getRegions table = .ok rs) :
  (rs.map ExpectedRegion.name).Nodup ∧ ∀ r ∈ rs, Text.byteLen r.name ≤ maxRegionName
  := by
  rw [getRegions] at h
  cases hget : table.get "expected_region".toList with
  | none =>
      rw [hget] at h
      cases h
      refine ⟨List.nodup_nil, ?_⟩
      intro r hr
      exact absurd hr List.not_mem_nil
  | some v =>
      simp only [hget, Res.bind_eq_ok, orFault_eq_ok] at h
      obtain ⟨items, _, hregions⟩ := h
      obtain ⟨hnodup, hrest⟩ := names_of_parseRegions hregions
      exact ⟨hnodup, fun r hr => (hrest r hr).2⟩

/-- The manifest of any document is well formed. -/
theorem wellFormed_of_parseTable {table : Table} {m : BootManifest}
    (h : parseTable table = .ok m) :
  m.WellFormed
  := by
  simp only [parseTable, Res.bind_eq_ok, failIf_eq_ok, Res.pure_eq, Res.ok.injEq,
    Bool.not_eq_false] at h
  obtain ⟨_, _, us, hunits, _, hdense, autostart, hauto, regions, hregions, rfl⟩ := h
  have hids : ∀ i (u : UnitEntry),
      (us.insertionSort fun a b => a.id ≤ b.id)[i]? = some u → u.id.toNat = i :=
    fun i u hu => ids_of_dense hdense hu
  obtain ⟨hnodup, hshort⟩ := names_of_getRegions hregions
  refine ⟨hids, find?_of_ids hids, ?_, ?_, hnodup, hshort⟩
  · intro u hu
    exact wellFormed_of_getUnits hunits u ((List.mem_insertionSort _).mp hu)
  · rintro id rfl
    obtain ⟨u, hu, rfl⟩ := autostart_of_getAutostart hauto
    obtain ⟨i, hi⟩ := List.mem_iff_getElem?.mp hu
    rw [hids i u hi]
    exact (List.getElem?_eq_some_iff.mp hi).1

/-- A manifest that is accepted is well formed, whatever the text. -/
theorem parse_wellFormed (dbg : Bool) (text : Text) (m : BootManifest)
    (h : parse dbg text = .ok m) :
  m.WellFormed
  := by
  simp only [parse, Res.bind_eq_ok, orFault_eq_ok] at h
  obtain ⟨doc, _, table, _, htable⟩ := h
  exact wellFormed_of_parseTable htable

/-- The lines of a manifest of two units, of which the first is controlled, and of a region. -/
def pairLines : List Text :=
  ["boot_toml_version = 1".toList, "[autostart]".toList, "unit = 1".toList, "[[unit]]".toList,
    "id = 1 # the game".toList, "exec = \"/game\"".toList, "[[unit]]".toList, "id = 0".toList,
    "exec = \"/bin/sh\"".toList, "args = [\"-c\", \"#\"]".toList, "[unit.control]".toList,
    "protocol = \"refwork-ctl\"".toList, "proto_version = 1".toList, "game_dev = \"vda\"".toList,
    "[[expected_region]]".toList, "name = \"save\"".toList, "layout_version = 2".toList]

/-- What is accepted of them is well formed. -/
theorem parse_wellFormed_pair :
  BootManifest.WellFormed
    { autostartUnit := some 1
      units :=
        [{ id := 0
           exec := "/bin/sh".toList
           args := ["-c".toList, "#".toList]
           logMask := 0x1F
           control := some
             { protocol := refworkCtl
               protoVersion := 1
               gameDev := some "vda".toList
               gameSource := none } },
          { id := 1, exec := "/game".toList, args := [], logMask := 0x1F, control := none }]
      expectedRegions := [{ name := "save".toList, layoutVersion := 2 }] }
  := by
  apply parse_wellFormed true (['\n'].intercalate pairLines)
  decide +kernel

end Boot

end Agent
