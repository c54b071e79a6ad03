import DetGuest.Agent.Regions

/-!
# Translating a range

The agent translates a range of the workload's addresses page by page, and joins pages whose
physical addresses are adjacent.  The extents are the runs of the physical addresses of the bytes
of the range, whatever the translation of the pages is.
-/

namespace Agent

open Wire

/-! ### Entries of the page map -/

/-- Bit 63 of an entry: the page is present. -/
def pmPresent : UInt64 := 0x8000000000000000

/-- Bit 62 of an entry: the page is swapped. -/
def pmSwapped : UInt64 := 0x4000000000000000

/-- Bits 0 to 54 of an entry: the frame number. -/
def pmPfnMask : UInt64 := 0x7FFFFFFFFFFFFF

/-- A translation of addresses. -/
abbrev Translation : Type := UInt64 → Except TranslateError UInt64

/-- Decode an entry. -/
def decodeEntry (vaddr entry : UInt64) : Except TranslateError UInt64 :=
  if entry &&& pmSwapped ≠ 0 then
    .error (.swapped vaddr)
  else if entry &&& pmPresent = 0 then
    .error (.notPresent vaddr)
  else
    let pfn := entry &&& pmPfnMask
    if pfn = 0 then
      .error (.pfnHidden vaddr)
    else
      .ok (pfn <<< 12)

/-- Translate an address over a page map, given as the eight bytes at each offset that can be
read. -/
def gvaToGpa (pagemap : UInt64 → Option UInt64) : Translation :=
  fun vaddr =>
    match pagemap (vaddr / 4096 * 8) with
    | none => .error .io
    | some entry => do
        let base ← decodeEntry (vaddr &&& ~~~0xFFF) entry
        pure (base + (vaddr &&& 0xFFF))

/-! ### Extents -/

/-- Put a piece behind the extents: it lengthens the last one where it goes on. -/
def pushPiece (extents : List Extent) (gpa chunk : UInt64) :
    Except BuildExtentsError (List Extent) :=
  match extents.getLast? with
  | some last =>
      if Word.checkedAdd last.gpa last.len = some gpa then
        match Word.checkedAdd last.len chunk with
        | some len => .ok (extents.dropLast ++ [{ last with len }])
        | none => .error .tooManyExtents
      else
        .ok (extents ++ [{ gpa, len := chunk }])
  | none => .ok (extents ++ [{ gpa, len := chunk }])

/-- How much of the rest of a range lies in the page of its first address. -/
def pieceLen (vaddr remaining : UInt64) : UInt64 := min remaining (4096 - (vaddr &&& 0xFFF))

theorem toNat_pieceLen (vaddr remaining : UInt64) :
  (pieceLen vaddr remaining).toNat = min remaining.toNat (4096 - vaddr.toNat % 4096)
  := by
  have hmask : (vaddr &&& 0xFFF).toNat = vaddr.toNat % 4096 := by
    rw [UInt64.toNat_and]
    exact Nat.and_two_pow_sub_one_eq_mod vaddr.toNat 12
  have hlt := Nat.mod_lt vaddr.toNat (show 4096 > 0 by decide)
  have hsub : (4096 - (vaddr &&& 0xFFF)).toNat = 4096 - vaddr.toNat % 4096 := by
    rw [UInt64.toNat_sub_of_le _ _ (by rw [UInt64.le_iff_toNat_le, hmask]; exact hlt.le), hmask]
    rfl
  rw [pieceLen, UInt64.toNat_min, hsub]

theorem pieceLen_pos {vaddr remaining : UInt64} (h : 0 < remaining) :
  0 < (pieceLen vaddr remaining).toNat
  := by
  have hlt := Nat.mod_lt vaddr.toNat (show 4096 > 0 by decide)
  rw [UInt64.lt_iff_toNat_lt, UInt64.toNat_zero] at h
  rw [toNat_pieceLen]
  omega

theorem pieceLen_le (vaddr remaining : UInt64) :
  (pieceLen vaddr remaining).toNat ≤ remaining.toNat
  := by
  rw [toNat_pieceLen]
  omega

/-- Translate the rest of a range, page by page. -/
def buildLoop (translate : Translation) (vaddr remaining : UInt64) (extents : List Extent) :
    Except BuildExtentsError (List Extent) :=
  if _ : 0 < remaining then
    match translate vaddr with
    | .error e => .error (.translate e)
    | .ok gpa =>
        let chunk := pieceLen vaddr remaining
        match pushPiece extents gpa chunk with
        | .error e => .error e
        | .ok extents =>
            if extents.length > extentCapacity then
              .error .tooManyExtents
            else
              match Word.checkedAdd vaddr chunk with
              | none => .error .tooManyExtents
              | some next => buildLoop translate next (remaining - chunk) extents
  else
    .ok extents
termination_by remaining.toNat
decreasing_by
  have hpos : 0 < (pieceLen vaddr remaining).toNat := pieceLen_pos ‹0 < remaining›
  have hle := pieceLen_le vaddr remaining
  rw [UInt64.toNat_sub_of_le _ _ (UInt64.le_iff_toNat_le.mpr hle)]
  omega

/-- The extents of a range. -/
def buildExtents (translate : Translation) (start len : UInt64) :
    Except BuildExtentsError (List Extent) :=
  buildLoop translate start len []

/-! ### The physical addresses of a range -/

/-- Inside a page a translation keeps distances. -/
def Affine (translate : Translation) : Prop :=
  ∀ v w g, v.toNat / 4096 = w.toNat / 4096 → translate v = .ok g →
    ∃ g', translate w = .ok g' ∧ g'.toNat + v.toNat = g.toNat + w.toNat

/-- The physical address of a byte of the range from `start` on, where it translates. -/
def physical (translate : Translation) (start : UInt64) (i : Nat) : Option Nat :=
  match translate (start + UInt64.ofNat i) with
  | .ok g => some g.toNat
  | .error _ => none

/-- The extents of the first bytes of a range. -/
structure Built (f : Nat → Option Nat) (n : Nat) (xs : List Extent) : Prop where
  canonical : Runs.Canonical (runsOf xs)
  total : Runs.total (runsOf xs) = n
  addr : ∀ i < n, Runs.addr (runsOf xs) i = f i
  count : xs.length = Runs.count f n
  fits : xs.length ≤ extentCapacity

/-- The first byte of a range at which its extents fail: its page does not translate, or it starts
one run too many. -/
def FailsAt (translate : Translation) (start : UInt64) (i : Nat) : BuildExtentsError → Prop
  | .translate e =>
      (∀ j < i, (physical translate start j).isSome) ∧
        Runs.count (physical translate start) i ≤ extentCapacity ∧
        translate (start + UInt64.ofNat i) = .error e
  | .tooManyExtents =>
      (∀ j ≤ i, (physical translate start j).isSome) ∧
        Runs.count (physical translate start) i = extentCapacity ∧
        Runs.Breaks (physical translate start) i

/-- What the extents of a range are. -/
def Decomposed (translate : Translation) (start len : UInt64) :
    Except BuildExtentsError (List Extent) → Prop
  | .ok xs => Built (physical translate start) len.toNat xs
  | .error e => ∃ i < len.toNat, FailsAt translate start i e

/-- A piece behind extents is a run behind their runs. -/
theorem pushPiece_eq {xs : List Extent} {gpa chunk : UInt64}
    (h : Runs.total (runsOf xs) + chunk.toNat < 2 ^ 64) :
  ∃ ys, pushPiece xs gpa chunk = .ok ys ∧
    runsOf ys = Runs.push (runsOf xs) gpa.toNat chunk.toNat
  := by
  rcases List.eq_nil_or_concat' xs with rfl | ⟨xs, last, rfl⟩
  · exact ⟨[{ gpa, len := chunk }], rfl, rfl⟩
  have hruns : runsOf (xs ++ [last]) = runsOf xs ++ [last.run] := runsOf_append ..
  have htotal : Runs.total (runsOf xs ++ [last.run])
      = Runs.total (runsOf xs) + last.len.toNat := by
    rw [Runs.total_append]
    rfl
  rw [hruns, htotal] at h
  rw [pushPiece, List.getLast?_concat, List.dropLast_concat, hruns, Runs.push_concat]
  dsimp only
  by_cases hgo : Word.checkedAdd last.gpa last.len = some gpa
  · have hlen : last.run.first + last.run.len = gpa.toNat :=
      (Word.checkedAdd_eq_some.mp hgo).symm
    rw [if_pos hgo, if_pos hlen]
    cases hadd : Word.checkedAdd last.len chunk with
    | none =>
        rw [Word.checkedAdd_eq_none] at hadd
        omega
    | some len =>
        rw [Word.checkedAdd_eq_some] at hadd
        refine ⟨_, rfl, ?_⟩
        rw [runsOf, List.map_append, List.map_singleton, Extent.run, hadd]
        rfl
  · have hlen : ¬ last.run.first + last.run.len = gpa.toNat := by
      rw [Word.checkedAdd_eq_some] at hgo
      exact fun heq => hgo heq.symm
    rw [if_neg hgo, if_neg hlen]
    refine ⟨_, rfl, ?_⟩
    rw [runsOf, List.map_append, ← runsOf, hruns]
    rfl

section Range

variable {translate : Translation} {start len : UInt64}

/-- The addresses of the piece of a range in a page. -/
theorem physical_piece (haff : Affine translate) {n : Nat} {vaddr remaining gpa : UInt64}
    (hend : start.toNat + n + remaining.toNat < 2 ^ 64) (hv : vaddr.toNat = start.toNat + n)
    (htr : translate vaddr = .ok gpa) {j : Nat} (hj : j < (pieceLen vaddr remaining).toNat) :
  physical translate start (n + j) = some (gpa.toNat + j)
  := by
  rw [toNat_pieceLen] at hj
  have hw : (start + UInt64.ofNat (n + j)).toNat = start.toNat + (n + j) := by
    rw [UInt64.toNat_add, UInt64.toNat_ofNat_of_lt' (by simp only [UInt64.size]; omega),
      Nat.mod_eq_of_lt (by omega)]
  obtain ⟨g, hg, hsum⟩ := haff vaddr (start + UInt64.ofNat (n + j)) gpa (by omega) htr
  rw [physical, hg]
  dsimp only
  congr 1
  omega

/-- One more piece. -/
theorem Built.push {f : Nat → Option Nat} {n : Nat} {xs ys : List Extent} {gpa chunk : UInt64}
    (h : Built f n xs) (hchunk : 0 < chunk.toNat)
    (hpiece : ∀ j < chunk.toNat, f (n + j) = some (gpa.toNat + j))
    (hys : runsOf ys = Runs.push (runsOf xs) gpa.toNat chunk.toNat) :
  ys.length = xs.length + (if Runs.Breaks f n then 1 else 0) ∧
    (ys.length ≤ extentCapacity → Built f (n + chunk.toNat) ys)
  := by
  have haddr : ∀ i < n + chunk.toNat, f i = Runs.addr (runsOf ys) i := by
    intro i hi
    rw [hys, Runs.addr_push, h.total]
    by_cases hlt : i < n
    · rw [if_pos hlt, h.addr i hlt]
    · obtain ⟨j, rfl⟩ := Nat.exists_eq_add_of_le (Nat.le_of_not_lt hlt)
      rw [if_neg hlt, if_pos hi, hpiece j (by omega), Nat.add_sub_cancel_left]
  have hcanon : Runs.Canonical (runsOf ys) := by
    rw [hys]
    apply h.canonical.push _ hchunk
  have hlen : ys.length = xs.length + (if Runs.Breaks f n then 1 else 0) := by
    have hpushed : ∀ i < Runs.total (runsOf xs) + chunk.toNat,
        f i = Runs.addr (Runs.push (runsOf xs) gpa.toNat chunk.toNat) i := by
      rw [h.total, ← hys]
      exact haddr
    have hpush := Runs.length_push h.canonical hchunk hpushed
    rw [← hys, h.total, runsOf, runsOf, List.length_map, List.length_map] at hpush
    exact hpush
  refine ⟨hlen, fun hfits => ⟨hcanon, ?_, fun i hi => (haddr i hi).symm, ?_, hfits⟩⟩
  · rw [hys, Runs.total_push, h.total]
  · rw [hlen, h.count, Runs.count_piece hchunk hpiece]

/-- From the extents of the first bytes of a range the loop gets to those of the range, or to the
first failure. -/
theorem buildLoop_decomposed (haff : Affine translate) (hend : start.toNat + len.toNat < 2 ^ 64)
    {n : Nat} {vaddr remaining : UInt64} {xs : List Extent}
    (hv : vaddr.toNat = start.toNat + n) (hr : n + remaining.toNat = len.toNat)
    (hb : Built (physical translate start) n xs) :
  Decomposed translate start len (buildLoop translate vaddr remaining xs)
  := by
  induction hk : remaining.toNat using Nat.strong_induction_on
    generalizing n vaddr remaining xs with
  | _ k ih =>
  rw [buildLoop]
  by_cases hpos : 0 < remaining
  · have hchunk : 0 < (pieceLen vaddr remaining).toNat := pieceLen_pos hpos
    have hle := pieceLen_le vaddr remaining
    have hstart : start + UInt64.ofNat n = vaddr := by
      rw [← UInt64.toNat_inj, UInt64.toNat_add,
        UInt64.toNat_ofNat_of_lt' (by simp only [UInt64.size]; omega), hv,
        Nat.mod_eq_of_lt (by omega)]
    have hsome : ∀ i < n, (physical translate start i).isSome := by
      intro i hi
      rw [← hb.addr i hi, Runs.isSome_addr, hb.total]
      exact hi
    rw [dif_pos hpos]
    cases htr : translate vaddr with
    | error e =>
        refine ⟨n, by omega, hsome, ?_, ?_⟩
        · rw [← hb.count]
          exact hb.fits
        · rw [hstart, htr]
    | ok gpa =>
        have hpiece : ∀ j < (pieceLen vaddr remaining).toNat,
            physical translate start (n + j) = some (gpa.toNat + j) :=
          fun j hj => physical_piece haff (by omega) hv htr hj
        have hroom : Runs.total (runsOf xs) + (pieceLen vaddr remaining).toNat < 2 ^ 64 := by
          rw [hb.total]
          omega
        obtain ⟨ys, hys, hruns⟩ := @pushPiece_eq xs gpa _ hroom
        obtain ⟨hlen, hbuilt⟩ := hb.push hchunk hpiece hruns
        dsimp only
        rw [hys]
        dsimp only
        by_cases hfull : ys.length > extentCapacity
        · rw [if_pos hfull]
          have hbreak : Runs.Breaks (physical translate start) n := by
            by_contra hgo
            rw [if_neg hgo] at hlen
            have hfits := hb.fits
            omega
          rw [if_pos hbreak] at hlen
          have hfits := hb.fits
          refine ⟨n, by omega, ?_, ?_, hbreak⟩
          · intro j hj
            rcases Nat.lt_or_eq_of_le hj with hlt | rfl
            · apply hsome j hlt
            · have h0 := hpiece 0 hchunk
              rw [Nat.add_zero] at h0
              rw [h0]
              rfl
          · rw [← hb.count]
            omega
        · rw [if_neg hfull]
          cases hadd : Word.checkedAdd vaddr (pieceLen vaddr remaining) with
          | none =>
              rw [Word.checkedAdd_eq_none] at hadd
              omega
          | some next =>
              rw [Word.checkedAdd_eq_some] at hadd
              have hrest : (remaining - pieceLen vaddr remaining).toNat
                  = remaining.toNat - (pieceLen vaddr remaining).toNat :=
                UInt64.toNat_sub_of_le _ _ (UInt64.le_iff_toNat_le.mpr hle)
              apply ih _ _ _ _ (hbuilt (by omega)) rfl
              · omega
              · omega
              · omega
  · rw [dif_neg hpos]
    have hzero : remaining.toNat = 0 := by
      rw [UInt64.lt_iff_toNat_lt] at hpos
      simpa using hpos
    have hn : n = len.toNat := by omega
    subst hn
    exact hb

/-- The extents of no bytes. -/
theorem built_zero (f : Nat → Option Nat) :
  Built f 0 []
  := ⟨Runs.canonical_nil, rfl, fun _ hi => absurd hi (Nat.not_lt_zero _), rfl, Nat.zero_le _⟩

theorem buildExtents_decomposed (haff : Affine translate)
    (hend : start.toNat + len.toNat < 2 ^ 64) :
  Decomposed translate start len (buildExtents translate start len)
  := buildLoop_decomposed haff hend (Nat.add_zero _).symm (Nat.zero_add _) (built_zero _)

/-- The loop ends well only where the rest of the range ends in the address space. -/
theorem buildLoop_fits {translate : Translation} {vaddr remaining : UInt64} {xs ys : List Extent}
    (h : buildLoop translate vaddr remaining xs = .ok ys) :
  vaddr.toNat + remaining.toNat < 2 ^ 64
  := by
  induction hk : remaining.toNat using Nat.strong_induction_on generalizing vaddr remaining xs with
  | _ k ih =>
  have hv := UInt64.toNat_lt vaddr
  rw [buildLoop] at h
  by_cases hpos : 0 < remaining
  · have hchunk : 0 < (pieceLen vaddr remaining).toNat := pieceLen_pos hpos
    have hle := pieceLen_le vaddr remaining
    rw [dif_pos hpos] at h
    cases htr : translate vaddr with
    | error e =>
        rw [htr] at h
        cases h
    | ok gpa =>
        rw [htr] at h
        dsimp only at h
        cases hpush : pushPiece xs gpa (pieceLen vaddr remaining) with
        | error e =>
            rw [hpush] at h
            cases h
        | ok zs =>
            rw [hpush] at h
            dsimp only at h
            by_cases hfull : zs.length > extentCapacity
            · rw [if_pos hfull] at h
              cases h
            rw [if_neg hfull] at h
            cases hadd : Word.checkedAdd vaddr (pieceLen vaddr remaining) with
            | none =>
                rw [hadd] at h
                cases h
            | some next =>
                rw [hadd] at h
                rw [Word.checkedAdd_eq_some] at hadd
                have hrest : (remaining - pieceLen vaddr remaining).toNat
                    = remaining.toNat - (pieceLen vaddr remaining).toNat :=
                  UInt64.toNat_sub_of_le _ _ (UInt64.le_iff_toNat_le.mpr hle)
                have hfits := ih _ (by omega) h hrest
                omega
  · rw [UInt64.lt_iff_toNat_lt, UInt64.toNat_zero] at hpos
    omega

/-- A range with extents ends in the address space. -/
theorem buildExtents_fits {translate : Translation} {start len : UInt64} {xs : List Extent}
    (h : buildExtents translate start len = .ok xs) :
  start.toNat + len.toNat < 2 ^ 64
  := buildLoop_fits h

/-- Extents built of one range are the only canonical ones. -/
theorem Built.unique {f : Nat → Option Nat} {n : Nat} {xs ys : List Extent} (h : Built f n xs)
    (hcanon : Runs.Canonical (runsOf ys)) (htotal : Runs.total (runsOf ys) = n)
    (haddr : ∀ i < n, Runs.addr (runsOf ys) i = f i) :
  ys = xs
  := by
  apply runsOf_injective
  apply hcanon.unique h.canonical
  intro i
  by_cases hi : i < n
  · rw [haddr i hi, h.addr i hi]
  · rw [Runs.addr_eq_none (by omega), Runs.addr_eq_none (by rw [h.total]; omega)]

/-- The range has extents exactly when all of it translates, to as many runs of physical addresses
as fit.  The extents are these runs, in order, and no other canonical list of extents has the
addresses of the range.  Otherwise the error is that of the first byte at which the translation
fails or a run too many starts. -/
theorem buildExtents_runs (translate : Translation) (haff : Affine translate) (start len : UInt64)
    (hend : start.toNat + len.toNat < 2 ^ 64) :
  ((∃ xs, buildExtents translate start len = .ok xs) ↔
    (∀ i < len.toNat, (physical translate start i).isSome) ∧
      Runs.count (physical translate start) len.toNat ≤ extentCapacity) ∧
  (∀ xs, buildExtents translate start len = .ok xs →
    Runs.Canonical (runsOf xs) ∧ Runs.total (runsOf xs) = len.toNat ∧
      (∀ i < len.toNat, Runs.addr (runsOf xs) i = physical translate start i) ∧
      ∀ ys, Runs.Canonical (runsOf ys) → Runs.total (runsOf ys) = len.toNat →
        (∀ i < len.toNat, Runs.addr (runsOf ys) i = physical translate start i) → ys = xs) ∧
  ∀ e, buildExtents translate start len = .error e →
    ∃ i < len.toNat, FailsAt translate start i e
  := by
  have hdec := buildExtents_decomposed haff hend
  refine ⟨⟨?_, ?_⟩, ?_, ?_⟩
  · rintro ⟨xs, hxs⟩
    rw [hxs] at hdec
    obtain ⟨_, htotal, haddr, hcount, hfits⟩ := hdec
    refine ⟨fun i hi => ?_, hcount ▸ hfits⟩
    rw [← haddr i hi, Runs.isSome_addr, htotal]
    exact hi
  · rintro ⟨hsome, hcount⟩
    cases hres : buildExtents translate start len with
    | ok xs => exact ⟨xs, rfl⟩
    | error e =>
        rw [hres] at hdec
        obtain ⟨i, hi, hfails⟩ := hdec
        cases e with
        | translate e =>
            have hphys := hsome i hi
            rw [physical, hfails.2.2] at hphys
            cases hphys
        | tooManyExtents =>
            obtain ⟨-, hfull, hbreak⟩ := hfails
            have hnext := Nat.count_lt_count_succ_iff.mpr hbreak
            have hmono := Nat.count_monotone (Runs.Breaks (physical translate start))
              (show i + 1 ≤ len.toNat from hi)
            rw [Runs.count] at hfull hcount
            rw [hfull] at hnext
            omega
  · intro xs hxs
    rw [hxs] at hdec
    refine ⟨hdec.canonical, hdec.total, hdec.addr, fun ys hcanon htotal haddr => ?_⟩
    apply Built.unique hdec hcanon htotal haddr
  · intro e he
    rw [he] at hdec
    exact hdec

/-- A range across the end of a page, on an identity mapping. -/
theorem buildExtents_runs_identity :
  (∃ xs, buildExtents .ok 0x1F00 0x300 = .ok xs) ↔
    (∀ i < 0x300, (physical .ok 0x1F00 i).isSome) ∧
      Runs.count (physical .ok 0x1F00) 0x300 ≤ extentCapacity
  := by
  have haff : Affine .ok := by
    intro v w g _ hg
    cases hg
    exact ⟨w, rfl, Nat.add_comm _ _⟩
  exact (buildExtents_runs .ok haff 0x1F00 0x300 (by decide)).1

end Range

/-! ### The page map of a process -/

/-- The address of an entry depends on the entry only. -/
theorem decodeEntry_ok {vaddr entry gpa : UInt64} (h : decodeEntry vaddr entry = .ok gpa) :
  (∃ pfn : UInt64, gpa = pfn <<< 12) ∧ ∀ w, decodeEntry w entry = .ok gpa
  := by
  simp only [decodeEntry] at h ⊢
  by_cases hswap : entry &&& pmSwapped ≠ 0
  · rw [if_pos hswap] at h
    cases h
  rw [if_neg hswap] at h
  by_cases hpres : entry &&& pmPresent = 0
  · rw [if_pos hpres] at h
    cases h
  rw [if_neg hpres] at h
  by_cases hpfn : entry &&& pmPfnMask = 0
  · rw [if_pos hpfn] at h
    cases h
  rw [if_neg hpfn] at h
  cases h
  refine ⟨⟨_, rfl⟩, fun w => ?_⟩
  rw [if_neg hswap, if_neg hpres, if_neg hpfn]

/-- Frames start at multiples of the page size. -/
theorem toNat_frame_add (pfn v : UInt64) :
  (pfn <<< 12 + (v &&& 0xFFF)).toNat = (pfn <<< 12).toNat + v.toNat % 4096
  := by
  have hmask : (v &&& 0xFFF).toNat = v.toNat % 4096 := by
    rw [UInt64.toNat_and]
    exact Nat.and_two_pow_sub_one_eq_mod v.toNat 12
  have hshift : (pfn <<< 12).toNat = pfn.toNat * 4096 % 2 ^ 64 := by
    rw [UInt64.toNat_shiftLeft, Nat.shiftLeft_eq]
    rfl
  rw [UInt64.toNat_add, hmask, hshift]
  omega

/-- The page map of a process keeps distances inside a page. -/
theorem affine_gvaToGpa (pagemap : UInt64 → Option UInt64) :
  Affine (gvaToGpa pagemap)
  := by
  intro v w g hpage hg
  have hdiv : v / 4096 = w / 4096 := by
    rw [← UInt64.toNat_inj, UInt64.toNat_div, UInt64.toNat_div]
    exact hpage
  rw [gvaToGpa] at hg ⊢
  rw [← hdiv]
  cases hentry : pagemap (v / 4096 * 8) with
  | none =>
      rw [hentry] at hg
      cases hg
  | some entry =>
      rw [hentry] at hg
      dsimp only at hg ⊢
      cases hdec : decodeEntry (v &&& ~~~0xFFF) entry with
      | error e =>
          rw [hdec] at hg
          cases hg
      | ok base =>
          rw [hdec] at hg
          cases hg
          obtain ⟨⟨pfn, rfl⟩, hany⟩ := decodeEntry_ok hdec
          rw [hany]
          refine ⟨_, rfl, ?_⟩
          rw [toNat_frame_add, toNat_frame_add]
          have hv := Nat.div_add_mod v.toNat 4096
          have hw := Nat.div_add_mod w.toNat 4096
          rw [← hpage] at hw
          omega

end Agent
