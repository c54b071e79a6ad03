import DetGuest.Agent.Syntax

/-!
# The tables of a document

What a header and the keys behind it make of the tables of a document.
-/

namespace Agent

namespace Tiny

/-! ### Keys -/

section Keys

variable (t : Table) (key : Text) (v w : Value)

theorem Table.get_cons (k : Text) :
  Table.get ((key, v) :: t) k = if k = key then some v else t.get k
  := by
  rw [Table.get, List.lookup_cons]
  by_cases hk : k = key
  · rw [if_pos hk, beq_iff_eq.mpr hk]
  · rw [if_neg hk, beq_eq_false_iff_ne.mpr hk]
    rfl

theorem Table.get_set (k : Text) :
  (t.set key v).get k = if k = key then some v else t.get k
  := by
  induction t with
  | nil => exact Table.get_cons [] key v k
  | cons entry t ih =>
      obtain ⟨key', x⟩ := entry
      rw [Table.set, Table.get_cons]
      by_cases hkey : key' = key
      · subst hkey
        rw [if_pos rfl, Table.get_cons]
        split
        · rfl
        · rfl
      · rw [if_neg hkey, Table.get_cons, ih]
        by_cases hk : k = key'
        · subst hk
          rw [if_pos rfl, if_neg hkey, if_pos rfl]
        · rw [if_neg hk, if_neg hk]

theorem Table.get_set_self :
  (t.set key v).get key = some v
  := by
  rw [Table.get_set, if_pos rfl]

theorem Table.get_set_ne {k : Text} (h : k ≠ key) :
  (t.set key v).get k = t.get k
  := by
  rw [Table.get_set, if_neg h]

theorem Table.set_set :
  (t.set key v).set key w = t.set key w
  := by
  induction t with
  | nil => exact if_pos rfl
  | cons entry t ih =>
      obtain ⟨k, x⟩ := entry
      by_cases hk : k = key
      · rw [Table.set, if_pos hk, Table.set, if_pos rfl, Table.set, if_pos hk]
      · rw [Table.set, if_neg hk, Table.set, if_neg hk, ih, Table.set, if_neg hk]

/-- A key that is not there yet is appended. -/
theorem Table.set_of_none (h : t.get key = none) :
  t.set key v = t ++ [(key, v)]
  := by
  induction t with
  | nil => rfl
  | cons entry t ih =>
      obtain ⟨k, x⟩ := entry
      rw [Table.get_cons] at h
      by_cases hk : key = k
      · rw [if_pos hk] at h
        cases h
      · rw [if_neg hk] at h
        rw [Table.set, if_neg (Ne.symm hk), ih h]
        rfl

theorem Table.get_eq_none :
  t.get key = none ↔ key ∉ t.map Prod.fst
  := by
  induction t with
  | nil => simp [Table.get]
  | cons entry t ih =>
      obtain ⟨k, x⟩ := entry
      rw [Table.get_cons, List.map_cons, List.mem_cons]
      by_cases hk : key = k
      · simp [hk]
      · rw [if_neg hk, ih]
        simp [hk]

/-- Where the keys are apart, each has the value that stands with it. -/
theorem Table.get_eq_some (hkeys : (t.map Prod.fst).Nodup) :
  t.get key = some v ↔ (key, v) ∈ t
  := by
  induction t with
  | nil => simp [Table.get]
  | cons entry t ih =>
      obtain ⟨k, x⟩ := entry
      rw [List.map_cons, List.nodup_cons] at hkeys
      rw [Table.get_cons, List.mem_cons, Prod.mk.injEq]
      by_cases hk : key = k
      · subst hk
        have hnot : (key, v) ∉ t :=
          fun hmem => hkeys.1 (List.mem_map.mpr ⟨(key, v), hmem, rfl⟩)
        rw [if_pos rfl, Option.some.injEq]
        simp [hnot, eq_comm]
      · rw [if_neg hk, ih hkeys.2]
        simp [hk]

theorem Table.get_append (t' : Table) :
  Table.get (t ++ t') key = (t.get key).or (t'.get key)
  := List.lookup_append

end Keys

/-- The order of the keys makes no difference to their values. -/
theorem Table.get_perm {t t' : Table} (h : t.Perm t') (hkeys : (t'.map Prod.fst).Nodup)
    (key : Text) :
  t.get key = t'.get key
  := by
  have hkeys' : (t.map Prod.fst).Nodup := (h.map Prod.fst).nodup_iff.mpr hkeys
  apply Option.ext
  intro v
  rw [Table.get_eq_some t key v hkeys', Table.get_eq_some t' key v hkeys, h.mem_iff]

/-! ### Places -/

/-- At a path of a table is a place for a table: a change of the table there is the change of the
whole. -/
def At (path : List Text) (put : Table → Table) : Prop :=
  ∀ change t, navigate change path (put t) = (change t).bind fun t => .ok (put t)

theorem at_root : At [] id
  := by
  intro change t
  rw [navigate, id]
  cases change t with
  | ok t => rfl
  | err e => rfl
  | panic => rfl

theorem res_bind_bind {ε α β γ : Type} (x : Res ε α) (f : α → Res ε β) (g : β → Res ε γ) :
  (x.bind f).bind g = x.bind fun a => (f a).bind g
  := by
  cases x with
  | ok a => rfl
  | err e => rfl
  | panic => rfl

theorem navigate_table (change : Table → Res Error Table) {seg : Text} (hseg : validKey seg = true)
    (path : List Text) {cur t : Table} (h : cur.get seg = some (.table t)) :
  navigate change (seg :: path) cur
    = (navigate change path t).bind fun t => .ok (cur.set seg (.table t))
  := by
  rw [navigate, if_pos hseg, h]
  rfl

theorem navigate_array (change : Table → Res Error Table) {seg : Text} (hseg : validKey seg = true)
    (path : List Text) {cur t : Table} {items : List Value}
    (h : cur.get seg = some (.array (items ++ [.table t]))) :
  navigate change (seg :: path) cur
    = (navigate change path t).bind fun t => .ok (cur.set seg (.array (items ++ [.table t])))
  := by
  rw [navigate, if_pos hseg, h]
  dsimp only
  rw [List.getLast?_concat, List.dropLast_concat]
  rfl

theorem navigate_none (change : Table → Res Error Table) {seg : Text} (hseg : validKey seg = true)
    (path : List Text) {cur : Table} (h : cur.get seg = none) :
  navigate change (seg :: path) cur
    = (navigate change path []).bind fun t => .ok (cur.set seg (.table t))
  := by
  rw [navigate, if_pos hseg, h]
  rfl

theorem At.table {path : List Text} {put : Table → Table} (h : At path put) (cur : Table)
    {seg : Text} (hseg : validKey seg = true) :
  At (seg :: path) fun t => cur.set seg (.table (put t))
  := by
  intro change t
  dsimp only
  rw [navigate_table change hseg path (Table.get_set_self cur seg _), h, res_bind_bind]
  apply congrArg
  funext t
  exact congrArg Res.ok (Table.set_set cur seg _ _)

theorem At.array {path : List Text} {put : Table → Table} (h : At path put) (cur : Table)
    (items : List Value) {seg : Text} (hseg : validKey seg = true) :
  At (seg :: path) fun t => cur.set seg (.array (items ++ [.table (put t)]))
  := by
  intro change t
  dsimp only
  rw [navigate_array change hseg path (Table.get_set_self cur seg _), h, res_bind_bind]
  apply congrArg
  funext t
  exact congrArg Res.ok (Table.set_set cur seg _ _)

/-! ### Sections -/

theorem Stmt.runAll_append (doc : Doc) (stmts stmts' : List Stmt) :
  Stmt.runAll doc (stmts ++ stmts')
    = (Stmt.runAll doc stmts).bind fun doc => Stmt.runAll doc stmts'
  := by
  induction stmts generalizing doc with
  | nil => rfl
  | cons stmt stmts ih =>
      rw [List.cons_append, Stmt.runAll, Stmt.runAll]
      cases stmt.run doc with
      | ok doc' => exact ih doc'
      | err e => rfl
      | panic => rfl

/-- Whether a line says nothing. -/
def Stmt.isBlank : Stmt → Bool
  | .blank => true
  | _ => false

/-- Lines that say nothing make no difference. -/
theorem Stmt.runAll_filter (doc : Doc) (stmts : List Stmt) :
  Stmt.runAll doc (stmts.filter fun stmt => !stmt.isBlank) = Stmt.runAll doc stmts
  := by
  induction stmts generalizing doc with
  | nil => rfl
  | cons stmt stmts ih =>
      by_cases hblank : stmt.isBlank = true
      · rw [List.filter_cons_of_neg (by rw [hblank]; decide), ih]
        cases stmt with
        | blank => rfl
        | array path last => cases hblank
        | table path => cases hblank
        | entry key v => cases hblank
      · rw [List.filter_cons_of_pos (by rw [Bool.eq_false_of_not_eq_true hblank]; rfl), Stmt.runAll,
          Stmt.runAll]
        apply congrArg
        funext doc
        exact ih doc

/-- The lines of the entries of a table. -/
def entries (es : Table) : List Stmt := es.map fun e => .entry e.1 e.2

/-- Keys that are apart are appended to the table at the open place. -/
theorem runAll_entries {path : List Text} {put : Table → Table} (h : At path put) {t es : Table}
    (hkeys : ((t ++ es).map Prod.fst).Nodup) :
  Stmt.runAll { root := put t, curPath := path } (entries es)
    = .ok { root := put (t ++ es), curPath := path }
  := by
  induction es generalizing t with
  | nil =>
      rw [List.append_nil]
      rfl
  | cons e es ih =>
      obtain ⟨key, v⟩ := e
      have hnone : t.get key = none := by
        rw [Table.get_eq_none]
        rw [List.map_append, List.nodup_append] at hkeys
        intro hmem
        exact hkeys.2.2 key hmem key List.mem_cons_self rfl
      have hstep : (Stmt.entry key v).run { root := put t, curPath := path }
          = .ok { root := put (t ++ [(key, v)]), curPath := path } := by
        rw [Stmt.run, h, insertKey, hnone, Table.set_of_none t key v hnone]
        rfl
      rw [entries, List.map_cons, Stmt.runAll, hstep]
      have hrest := ih (t := t ++ [(key, v)]) (by rwa [List.append_assoc])
      rw [List.append_assoc] at hrest
      exact hrest

section Sections

variable {root : Table} {cur : List Text} {key : Text} {es : Table}

/-- A table that is not there yet, with its keys. -/
theorem runAll_table (hkey : validKey key = true) (hnone : root.get key = none)
    (hes : (es.map Prod.fst).Nodup) :
  Stmt.runAll { root, curPath := cur } (.table [key] :: entries es)
    = .ok { root := root.set key (.table es), curPath := [key] }
  := by
  have hheader : (Stmt.table [key]).run { root, curPath := cur }
      = .ok { root := root.set key (.table []), curPath := [key] } := by
    rw [Stmt.run, navigate_none .ok hkey [] hnone]
    rfl
  rw [Stmt.runAll, hheader]
  exact runAll_entries (at_root.table root hkey) (t := []) hes

/-- One more table of an array, with its keys. -/
theorem runAll_array (hkey : validKey key = true) {items : List Value}
    (hitems : root.get key = none ∧ items = [] ∨ root.get key = some (.array items))
    (hes : (es.map Prod.fst).Nodup) :
  Stmt.runAll { root, curPath := cur } (.array [] key :: entries es)
    = .ok { root := root.set key (.array (items ++ [.table es])), curPath := [key] }
  := by
  have hheader : (Stmt.array [] key).run { root, curPath := cur }
      = .ok { root := root.set key (.array (items ++ [.table []])), curPath := [key] } := by
    rw [Stmt.run, navigate, pushTable]
    rcases hitems with ⟨hnone, rfl⟩ | hsome
    · rw [hnone]
      rfl
    · rw [hsome]
      rfl
  rw [Stmt.runAll, hheader]
  exact runAll_entries (at_root.array root items hkey) (t := []) hes

/-- A table in the last table of an array, with its keys. -/
theorem runAll_subtable (hkey : validKey key = true) {sub : Text} (hsub : validKey sub = true)
    {items : List Value} {t : Table} (hitems : root.get key = some (.array (items ++ [.table t])))
    (hnone : t.get sub = none) (hes : (es.map Prod.fst).Nodup) :
  Stmt.runAll { root, curPath := cur } (.table [key, sub] :: entries es)
    = .ok { root := root.set key (.array (items ++ [.table (t.set sub (.table es))])),
            curPath := [key, sub] }
  := by
  have hheader : (Stmt.table [key, sub]).run { root, curPath := cur }
      = .ok { root := root.set key (.array (items ++ [.table (t.set sub (.table []))])),
              curPath := [key, sub] } := by
    rw [Stmt.run, navigate_array .ok hkey [sub] hitems, navigate_none .ok hsub [] hnone]
    rfl
  rw [Stmt.runAll, hheader]
  exact runAll_entries ((at_root.table t hsub).array root items hkey) (t := []) hes

end Sections

end Tiny

end Agent
