import DetGuest.Agent.Ledger
import DetGuest.Lib.Seqlock

/-!
# The version of the manifest

The generation is the version of the manifest area.  Each change of a book is a bracket: the
generation is made odd, the writes of the change leave it, even those that rewrite the whole
header, and it is made even behind them.
-/

namespace Agent

open Wire Wire.Regionipc Seqlock

section Fields

variable {g : UInt64} {n p i lo : Nat} {w : Nat × Bytes}

/-- Fields behind the header are beside the generation. -/
theorem spares_fieldsAt {fields : List Bytes} (hlo : offEntries ≤ lo)
    (hw : w ∈ Slice.fieldsAt lo fields) :
  Spares offGeneration g w
  := by
  induction fields generalizing lo with
  | nil => cases hw
  | cons f fields ih =>
      rcases List.mem_cons.mp hw with rfl | hrest
      · right
        right
        exact Nat.le_trans (by decide) hlo
      · exact ih (Nat.le_trans hlo (Nat.le_add_right ..)) hrest

theorem spares_extentWrites {xs : List Extent} (hw : w ∈ extentWrites lo xs) :
  Spares offGeneration g w
  := by
  induction xs generalizing lo with
  | nil => cases hw
  | cons x xs ih =>
      rcases List.mem_append.mp hw with hone | hrest
      · apply spares_fieldsAt _ hone
        rw [Extent.offset, offExtents, Nat.add_assoc]
        apply Nat.le_add_right
      · exact ih hrest

theorem spares_entry {fields : List Bytes} (hw : w ∈ Slice.fieldsAt (RegionEntry.offset i) fields) :
  Spares offGeneration g w
  := by
  apply spares_fieldsAt _ hw
  apply Nat.le_add_right

/-- The header is rewritten with the generation that it has. -/
theorem spares_header (hw : w ∈ Slice.fieldsAt 0 (canonicalHeader g n p).fields) :
  Spares offGeneration g w
  := by
  simp only [ManifestHeader.fields, Slice.fieldsAt, Bytes.length_ofU16, Bytes.length_ofU32,
    Bytes.length_ofU64, List.mem_cons, List.not_mem_nil, or_false] at hw
  rcases hw with rfl | rfl | rfl | rfl | rfl | rfl | rfl
  · exact .inr (.inl (Nat.le_of_ble_eq_true rfl))
  · exact .inr (.inl (Nat.le_of_ble_eq_true rfl))
  · exact .inr (.inl (Nat.le_of_ble_eq_true rfl))
  · exact .inl rfl
  · exact .inr (.inr (Nat.le_of_ble_eq_true rfl))
  · exact .inr (.inr (Nat.le_of_ble_eq_true rfl))
  · exact .inr (.inr (Nat.le_of_ble_eq_true rfl))

end Fields

namespace Book

variable {b : Book} {c : Change} {cs : List Change} {w : Nat × Bytes}

/-- The writes of a change leave the generation odd. -/
theorem spares_writes (hw : w ∈ b.writes c) :
  Spares offGeneration (b.generation + 1) w
  := by
  cases c with
  | publish r =>
      rcases List.mem_append.mp hw with hextents | hrest
      · exact spares_extentWrites hextents
      · rcases List.mem_append.mp hrest with hentry | hheader
        · exact spares_entry hentry
        · exact spares_header hheader
  | bury i =>
      rw [writes] at hw
      split at hw
      · cases hw
      · exact spares_entry hw
  | move i extents =>
      rw [writes] at hw
      split at hw
      · cases hw
      · rcases List.mem_append.mp hw with hextents | hrest
        · exact spares_extentWrites hextents
        · rcases List.mem_append.mp hrest with hentry | hheader
          · exact spares_entry hentry
          · rw [poolWrites] at hheader
            split at hheader
            · cases hheader
            · exact spares_header hheader

/-- The writes of changes are brackets, one for each change. -/
theorem bracketed_log (h : b.AllowsAll cs) :
  Bracketed offGeneration b.generation (b.log cs) cs.length
  := by
  induction h with
  | nil b => exact .nil _
  | @cons b c cs hc _ ih =>
      rw [log, sealedWrites, List.cons_append, List.append_assoc]
      apply Bracketed.cons
      · intro w hw
        exact spares_writes hw
      · rw [generation_apply hc] at ih
        exact ih

end Book

/-! ### Calls of the writer -/

/-- The calls that write the manifest. -/
inductive WriterOp where
  | writeRegion (name : Bytes) (nameId layoutVersion flags : UInt32) (gva len : UInt64)
      (extents : List Extent)
  | markRegionDead (regionId : UInt32)
  | rewriteExtents (regionId : UInt32) (extents : List Extent)

/-- The manifest area behind a call, however it ends. -/
def WriterOp.run (dbg : Bool) (s : Slice) : WriterOp → Slice
  | .writeRegion name nameId layoutVersion flags gva len extents =>
      ((Agent.writeRegion dbg name nameId layoutVersion flags gva len extents).run s).1
  | .markRegionDead regionId => ((Agent.markRegionDead dbg regionId).run s).1
  | .rewriteExtents regionId extents => ((Agent.rewriteExtents dbg regionId extents).run s).1

/-- The manifest area behind calls one after the other. -/
def runWriter (dbg : Bool) (s : Slice) (ops : List WriterOp) : Slice := ops.foldl (WriterOp.run dbg) s

/-- The writes of a call in a bracket that is open with the version `v`: they spare the version, and
the call may close the bracket. -/
def Closes {ε α : Type} (v : UInt64) (x : Exec Slice ε α) : Prop :=
  ∀ s, s.len = manifestTotalSize → s.mem.u64 offGeneration = v →
    ∃ ws, (∀ w ∈ ws, Spares offGeneration v w) ∧
      ((x.run s).1 = s.writeAll ws ∨ (x.run s).1 = s.writeAll (ws ++ [mark offGeneration (v + 1)]))

/-- The writes from one state of the area to the next: none, or one bracket, which may be left
open. -/
def Brackets (s t : Slice) : Prop :=
  t = s ∨ (s.mem.u64 offGeneration % 2 = 0 ∧
    ∃ ws, (∀ w ∈ ws, Spares offGeneration (s.mem.u64 offGeneration + 1) w) ∧
      (t = s.writeAll (mark offGeneration (s.mem.u64 offGeneration + 1) :: ws) ∨
        t = s.writeAll (mark offGeneration (s.mem.u64 offGeneration + 1) ::
          (ws ++ [mark offGeneration (s.mem.u64 offGeneration + 2)]))))

section Calls

variable {ε ε' α β : Type} {v : UInt64} {s : Slice}

theorem Closes.bind {x : Exec Slice ε α} {f : α → Exec Slice ε β}
    (hx : Slice.Makes (Spares offGeneration v) x) (hf : ∀ a, Closes v (f a)) :
  Closes v (x >>= f)
  := by
  intro s hlen hv
  obtain ⟨ws, hrun, hws⟩ := hx s
  rcases hout : x.run s with ⟨t, out⟩
  rw [hout] at hrun
  obtain rfl : t = s.writeAll ws := hrun
  cases out with
  | ok a =>
      have hv' : (s.writeAll ws).mem.u64 offGeneration = v := by
        rw [Slice.writeAll_mem]
        exact writeAll_spares hv hws
      obtain ⟨ws', hws', hrun'⟩ := hf a (s.writeAll ws) (by rw [Slice.writeAll_len, hlen]) hv'
      refine ⟨ws ++ ws', ?_, ?_⟩
      · intro w hw
        exact (List.mem_append.mp hw).elim (hws w) (hws' w)
      · rw [Exec.run_bind_of_ok hout, List.append_assoc, Slice.writeAll_append,
          Slice.writeAll_append]
        exact hrun'
  | err e =>
      refine ⟨ws, hws, .inl ?_⟩
      rw [Exec.run_bind_of_err hout]
  | panic =>
      refine ⟨ws, hws, .inl ?_⟩
      rw [Exec.run_bind_of_panic hout]

/-- The bracket is closed. -/
theorem closes_writerEnd (dbg : Bool) (g : EncodeError → ε) :
  Closes v (Exec.mapErr g (writerEnd dbg))
  := by
  intro s hlen hv
  refine ⟨[], fun _ hw => (nomatch hw), ?_⟩
  have hgen : (ManifestHeader.ofMem s.mem).generation = v := hv
  change ((writerEnd dbg).run s).1 = s ∨
    ((writerEnd dbg).run s).1 = s.write offGeneration (Bytes.ofU64 (v + 1))
  rw [writerEnd, Exec.run_bind_of_ok (Exec.run_get s), readGeneration_eq hlen, hgen,
    Res.mapErr_ok, Exec.run_bind_of_ok (Exec.run_lift _ s)]
  by_cases hodd : v % 2 = 1
  · rw [Exec.run_bind_of_ok (Exec.run_failIf_of_not (not_not.mpr hodd) s)]
    by_cases hover : dbg = true → v + 1 ≠ 0
    · right
      rw [Exec.run_bind_of_ok (Exec.run_debugAssert_of_imp hover s),
        Exec.run_bind_of_ok (Slice.run_put (by rw [hlen, Bytes.length_ofU64]; decide))]
      rfl
    · left
      obtain ⟨hdbg, hzero⟩ := Classical.not_imp.mp hover
      subst hdbg
      rw [Exec.run_bind_of_panic (Exec.run_debugAssert_of_not hzero s)]
  · left
    rw [Exec.run_bind_of_err (Exec.run_failIf_of hodd s)]

theorem Closes.map {x : Exec Slice ε α} {f : α → β} (h : Closes v x) :
  Closes v (do
    let a ← x
    pure (f a))
  := by
  intro s hlen hv
  have hsame : ((do
      let a ← x
      pure (f a)).run s).1 = (x.run s).1 := by
    rcases hout : x.run s with ⟨t, out⟩
    cases out with
    | ok a => rw [Exec.run_bind_of_ok hout, Exec.run_pure]
    | err e => rw [Exec.run_bind_of_err hout]
    | panic => rw [Exec.run_bind_of_panic hout]
  rw [hsame]
  exact h s hlen hv

theorem closes_ite {c : Prop} [Decidable c] {x y : Exec Slice ε α} (hx : Closes v x)
    (hy : Closes v y) :
  Closes v (if c then x else y)
  := by
  split
  · exact hx
  · exact hy

theorem Brackets.bind {x : Exec Slice ε α} {f : α → Exec Slice ε β} (hx : (x.run s).1 = s)
    (hf : ∀ a, Brackets s ((f a).run s).1) :
  Brackets s ((x >>= f).run s).1
  := by
  rcases hout : x.run s with ⟨t, out⟩
  rw [hout] at hx
  obtain rfl : t = s := hx
  cases out with
  | ok a =>
      rw [Exec.run_bind_of_ok hout]
      exact hf a
  | err e =>
      left
      rw [Exec.run_bind_of_err hout]
  | panic =>
      left
      rw [Exec.run_bind_of_panic hout]

/-- A bracket opens. -/
theorem brackets_writerBegin (hlen : s.len = manifestTotalSize) (g : EncodeError → ε)
    {f : UInt64 → Exec Slice ε β} (hf : ∀ v, Closes v (f v)) :
  Brackets s ((do
    let odd ← Exec.mapErr g writerBegin
    f odd).run s).1
  := by
  obtain ⟨v, hv⟩ : ∃ v, s.mem.u64 offGeneration = v := ⟨_, rfl⟩
  have hgen : (ManifestHeader.ofMem s.mem).generation = v := hv
  rw [Brackets, hv]
  by_cases heven : v % 2 = 0
  · right
    have hbegin := Exec.run_mapErr_of_ok (f := g) (run_writerBegin hlen hgen heven)
    obtain ⟨ws, hws, hrun⟩ := hf (v + 1) (s.write offGeneration (Bytes.ofU64 (v + 1))) hlen
      (u64_mark ..)
    have htwo : v + 1 + 1 = v + 2 := by
      rw [UInt64.add_assoc]
      rfl
    rw [htwo] at hrun
    refine ⟨heven, ws, hws, ?_⟩
    rw [Exec.run_bind_of_ok hbegin]
    exact hrun
  · left
    have hbegin : (Exec.mapErr g writerBegin).run s = (s, .err (g .seqlockMisuse)) := by
      have hodd : writerBegin.run s = (s, .err .seqlockMisuse) := by
        rw [writerBegin, Exec.run_bind_of_ok (Exec.run_get s), readGeneration_eq hlen, hgen,
          Res.mapErr_ok, Exec.run_bind_of_ok (Exec.run_lift _ s),
          Exec.run_bind_of_err (Exec.run_failIf_of heven s)]
      rw [Exec.run_mapErr, hodd]
      rfl
    rw [Exec.run_bind_of_err hbegin]

/-! ### The writes of the writers -/

theorem fst_run_lift (x : Res ε α) (s : Slice) :
  ((Exec.lift x : Exec Slice ε α).run s).1 = s
  := rfl

theorem fst_run_failIf (c : Prop) [Decidable c] (e : ε) (s : Slice) :
  ((Exec.failIf c e).run s).1 = s
  := by
  rw [Exec.failIf]
  split
  · rfl
  · rfl

theorem makes_extent (v : UInt64) (x : Extent) (i : Nat) :
  Slice.Makes (Spares offGeneration v) (x.writeTo i)
  := by
  have hbehind : ∀ k bs, Spares offGeneration v (Extent.offset i + k, bs) := by
    intro k bs
    right
    right
    simp only [offGeneration, Extent.offset, offExtents, offEntries]
    omega
  apply Slice.Makes.bind (Slice.makes_failIf _ _)
  intro _
  apply Slice.Makes.bind (Slice.makes_of_still fun _ => rfl)
  intro _
  apply Slice.Makes.bind (Slice.makes_failIf _ _)
  intro _
  apply Slice.Makes.bind (Slice.makes_put (hbehind 0 _))
  intro _
  exact Slice.makes_put (hbehind 8 _)

theorem makes_writeExtents (v : UInt64) (off : Nat) (xs : List Extent) :
  Slice.Makes (Spares offGeneration v) (writeExtents off xs)
  := by
  induction xs generalizing off with
  | nil => exact Slice.makes_of_still fun _ => rfl
  | cons x xs ih => exact (makes_extent v x off).bind fun _ => ih (off + 1)

theorem makes_entry (v : UInt64) (e : RegionEntry) (i : Nat) :
  Slice.Makes (Spares offGeneration v) (e.writeTo i)
  := by
  have hput : ∀ k bs, Slice.Makes (Spares offGeneration v)
      (Slice.put (RegionEntry.offset i + k) bs : Exec Slice EncodeError Unit) := by
    intro k bs
    apply Slice.makes_put
    right
    right
    simp only [offGeneration, RegionEntry.offset, offEntries]
    omega
  apply Slice.Makes.bind (Slice.makes_failIf _ _)
  intro _
  apply Slice.Makes.bind (Slice.makes_of_still fun _ => rfl)
  intro _
  apply Slice.Makes.bind (Slice.makes_failIf _ _)
  intro _
  exact (hput 0 _).bind fun _ => (hput 4 _).bind fun _ => (hput 8 _).bind fun _ =>
    (hput 12 _).bind fun _ => (hput 16 _).bind fun _ => (hput 24 _).bind fun _ =>
      (hput 32 _).bind fun _ => (hput 36 _).bind fun _ => hput 40 _

/-- The header is rewritten with the version that it has. -/
theorem makes_header (h : ManifestHeader) (hv : h.generation = v) :
  Slice.Makes (Spares offGeneration v) h.writeTo
  := by
  subst hv
  have hput : ∀ lo bs, lo + bs.length ≤ 8 ∨ 16 ≤ lo → Slice.Makes (Spares offGeneration h.generation)
      (Slice.put lo bs : Exec Slice EncodeError Unit) := by
    intro lo bs hbeside
    apply Slice.makes_put
    right
    exact hbeside
  apply Slice.Makes.bind (Slice.makes_of_still fun _ => rfl)
  intro _
  apply Slice.Makes.bind (Slice.makes_failIf _ _)
  intro _
  exact (hput 0 _ (.inl (Nat.le_of_ble_eq_true rfl))).bind fun _ =>
    (hput 4 _ (.inl (Nat.le_of_ble_eq_true rfl))).bind fun _ =>
      (hput 6 _ (.inl (Nat.le_of_ble_eq_true rfl))).bind fun _ =>
        (Slice.makes_put (.inl rfl)).bind fun _ =>
          (hput 16 _ (.inr (Nat.le_of_ble_eq_true rfl))).bind fun _ =>
            (hput 20 _ (.inr (Nat.le_of_ble_eq_true rfl))).bind fun _ =>
              hput 24 _ (.inr (Nat.le_of_ble_eq_true rfl))

/-- Each call of the writer makes no writes or one bracket. -/
theorem brackets_writerOp (dbg : Bool) (op : WriterOp) (hlen : s.len = manifestTotalSize) :
  Brackets s (op.run dbg s)
  := by
  cases op with
  | writeRegion name nameId layoutVersion flags gva len extents =>
      change Brackets s ((writeRegion ..).run s).1
      apply Brackets.bind (fst_run_lift ..)
      intro packedName
      apply Brackets.bind rfl
      intro manifest
      apply Brackets.bind (fst_run_lift ..)
      intro hdr
      apply Brackets.bind (fst_run_lift ..)
      intro _
      apply Brackets.bind (fst_run_failIf ..)
      intro _
      apply Brackets.bind (fst_run_failIf ..)
      intro _
      apply brackets_writerBegin hlen
      intro v
      apply Closes.bind (makes_writeExtents v _ _).expect
      intro _
      apply Closes.bind (makes_entry v _ _).expect
      intro _
      apply Closes.bind
      · exact (makes_header _ rfl).expect
      · exact fun _ => (closes_writerEnd dbg _).map
  | markRegionDead regionId =>
      change Brackets s ((markRegionDead ..).run s).1
      apply Brackets.bind rfl
      intro manifest
      apply Brackets.bind (fst_run_lift ..)
      intro entry
      apply brackets_writerBegin hlen
      intro v
      apply Closes.bind (makes_entry v _ _).mapErr
      intro _
      apply closes_writerEnd
  | rewriteExtents regionId extents =>
      change Brackets s ((rewriteExtents ..).run s).1
      apply Brackets.bind rfl
      intro manifest
      apply Brackets.bind (fst_run_lift ..)
      intro entry
      apply Brackets.bind (fst_run_lift ..)
      intro hdr
      apply Brackets.bind (fst_run_failIf ..)
      intro _
      apply brackets_writerBegin hlen
      intro v
      apply Closes.bind (makes_writeExtents v _ _).mapErr
      intro _
      apply Closes.bind (makes_entry v _ _).mapErr
      intro _
      apply closes_ite
      · apply Closes.bind
        · exact (makes_header _ rfl).mapErr
        · exact fun _ => closes_writerEnd dbg _
      · apply closes_writerEnd

/-- The writes of calls one after the other are brackets, but for the last one that may be open. -/
theorem brackets_runWriter (dbg : Bool) (ops : List WriterOp) (hlen : s.len = manifestTotalSize)
    (heven : s.mem.u64 offGeneration % 2 = 0) :
  ∃ ws extra k, runWriter dbg s ops = s.writeAll ws ∧
    Bracketed offGeneration (s.mem.u64 offGeneration) (ws ++ extra) k ∧ k ≤ ops.length
  := by
  -- A bracket that was left open stays so: the version is odd, and every call fails.
  have hstuck : ∀ (ops : List WriterOp) (s : Slice), s.len = manifestTotalSize →
      ¬ s.mem.u64 offGeneration % 2 = 0 → runWriter dbg s ops = s := by
    intro ops
    induction ops with
    | nil => exact fun _ _ _ => rfl
    | cons op ops ih =>
        intro s hlen hodd
        obtain hstill | ⟨heven, _⟩ := brackets_writerOp dbg op hlen
        · rw [runWriter, List.foldl_cons, hstill]
          exact ih s hlen hodd
        · exact absurd heven hodd
  induction ops generalizing s with
  | nil => exact ⟨[], [], 0, rfl, .nil _, Nat.le_refl _⟩
  | cons op ops ih =>
      obtain ⟨v, hv⟩ : ∃ v, s.mem.u64 offGeneration = v := ⟨_, rfl⟩
      have hcases := brackets_writerOp dbg op hlen
      rw [Brackets, hv] at hcases
      rw [hv] at heven
      rw [hv, runWriter, List.foldl_cons]
      rcases hcases with hstill | ⟨_, body, hbody, hopen | hclosed⟩
      · rw [hstill]
        obtain ⟨ws, extra, k, hws, hbrackets, hk⟩ := ih hlen (by rw [hv]; exact heven)
        rw [hv] at hbrackets
        exact ⟨ws, extra, k, hws, hbrackets, Nat.le_succ_of_le hk⟩
      · refine ⟨mark offGeneration (v + 1) :: body, [mark offGeneration (v + 2)], 1, ?_, ?_, ?_⟩
        · rw [hopen]
          apply hstuck ops
          · rw [Slice.writeAll_len]
            exact hlen
          · have hodd : (s.writeAll (mark offGeneration (v + 1) :: body)).mem.u64 offGeneration
                = v + 1 := by
              rw [Slice.writeAll_mem, ByteMem.writeAll_cons]
              exact writeAll_spares (u64_mark ..) hbody
            rw [hodd, Seqlock.odd_of_even heven]
            decide
        · exact .cons hbody (.nil _)
        · exact Nat.succ_le_succ (Nat.zero_le _)
      · obtain ⟨t, ht⟩ : ∃ t, s.writeAll (mark offGeneration (v + 1) ::
            (body ++ [mark offGeneration (v + 2)])) = t := ⟨_, rfl⟩
        have hlen' : t.len = manifestTotalSize := by
          rw [← ht, Slice.writeAll_len]
          exact hlen
        have hv' : t.mem.u64 offGeneration = v + 2 := by
          rw [← ht, Slice.writeAll_mem, ByteMem.writeAll_cons, ByteMem.writeAll_append]
          apply u64_mark
        have heven' : (v + 2) % 2 = 0 := even_add_two heven
        rw [hclosed, ht]
        obtain ⟨ws, extra, k, hws, hbrackets, hk⟩ := ih hlen' (by rw [hv']; exact heven')
        rw [hv'] at hbrackets
        refine ⟨(mark offGeneration (v + 1) :: (body ++ [mark offGeneration (v + 2)])) ++ ws, extra,
          k + 1, ?_, ?_, Nat.succ_le_succ hk⟩
        · rw [Slice.writeAll_append, ht]
          exact hws
        · rw [List.cons_append, List.append_assoc, List.cons_append, List.append_assoc]
          exact .cons hbody hbrackets

end Calls

end Agent
