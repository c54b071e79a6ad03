import DetGuest.Lib.Cursor
import DetGuest.Lib.Utf8

/-!
# The control leg of the boot

The agent drives a workload over its control socket: it says hello, loads the game, waits until
the workload is ready and starts it.  The replies are messages of the workload's own protocol,
one per datagram; announcements of regions are skipped.
-/

namespace Agent

namespace Control

/-- Greatest length of a datagram. -/
def maxDatagram : Nat := 4096

/-- Greatest number of polls for one reply. -/
def recvWakeLimit : Nat := 600

/-- Why a datagram is no reply. -/
inductive ReplyError where
  | offsetOverflow
  | truncated
  | truncatedVarint
  | varintOverflow
  | lengthOverflow
  | notUtf8
  | protoVersionOverflow
  | unknownTag (tag : UInt64)
  | trailingBytes
  deriving DecidableEq, Repr

/-- A reply of the workload. -/
inductive ControlReply where
  | helloAck (protoVersion : UInt16)
  | gameLoaded
  | region
  | ready (frame : UInt64)
  | fault (detail : Bytes)
  deriving DecidableEq, Repr

/-! ### Encoders -/

/-- Append a varint.  A round takes seven bits, so that ten rounds are enough. -/
def pushVarint (out : Bytes) (value : UInt64) : Bytes :=
  go 10 out value
where
  go : Nat → Bytes → UInt64 → Bytes
    | 0, out, _ => out
    | fuel + 1, out, value =>
        if value ≥ 0x80 then
          go fuel (out ++ [value.toUInt8 ||| 0x80]) (value >>> 7)
        else
          out ++ [value.toUInt8]

/-- Append a byte string behind its length. -/
def pushBytes (out bytes : Bytes) : Bytes :=
  pushVarint out (UInt64.ofNat bytes.length) ++ bytes

/-- The `Hello` datagram. -/
def encodeHello (protoVersion : UInt16) : Bytes := pushVarint [0x00] protoVersion.toUInt64

/-- The `LoadGame` datagram. -/
def encodeLoadGame (devPath : Bytes) : Bytes := pushBytes [0x01] devPath

/-- The `Start` datagram. -/
def encodeStart : Bytes := [0x02]

example : encodeHello 300 = [0x00, 0xAC, 0x02] ∧ encodeLoadGame [0x2F, 0x64] = [1, 2, 0x2F, 0x64]
  := by decide

/-! ### Decoders -/

/-- Take the next `n` bytes. -/
def take (n : Nat) : Exec Cursor ReplyError Bytes := do
  let c ← Exec.get
  Exec.failIf (c.pos + n ≥ 2 ^ 64) .offsetOverflow
  Exec.failIf (c.pos + n > c.bytes.length) .truncated
  Exec.set { c with pos := c.pos + n }
  pure (c.bytes.extract c.pos (c.pos + n))

/-- Rounds of `varint`: each takes a byte with the next seven bits. -/
def varintRounds : Nat → UInt64 → UInt64 → Exec Cursor ReplyError UInt64
  | 0, _, _ => Exec.fail .varintOverflow
  | fuel + 1, value, shift => do
      match ← take 1 with
      | [] => Exec.fail .truncatedVarint
      | byte :: _ =>
          Exec.failIf (shift ≥ 64) .varintOverflow
          let value := value ||| ((byte &&& 0x7F).toUInt64 <<< shift)
          if byte &&& 0x80 = 0 then
            pure value
          else if shift + 7 ≥ 64 then
            Exec.fail .varintOverflow
          else
            varintRounds fuel value (shift + 7)

/-- Take a varint.  The shift passes 63 in the tenth round at the latest. -/
def varint : Exec Cursor ReplyError UInt64 := varintRounds 10 0 0

/-- Take a string behind its length. -/
def string : Exec Cursor ReplyError Bytes := do
  let len ← varint
  let bytes ← take len.toNat
  Exec.failIf (Utf8.isValid bytes = false) .notUtf8
  pure bytes

/-- The reply behind its tag. -/
def replyBody (tag : UInt64) : Exec Cursor ReplyError ControlReply :=
  if tag = 5 then do
    let protoVersion ← varint
    Exec.failIf (protoVersion.toNat ≥ 2 ^ 16) .protoVersionOverflow
    let _emu ← string
    let _emuVersion ← string
    pure (.helloAck protoVersion.toUInt16)
  else if tag = 6 then do
    let _ ← take 32
    let _mapper ← string
    let _sramSize ← varint
    pure .gameLoaded
  else if tag = 7 then do
    -- what a region announcement says is consumed unread
    Exec.modify fun c => { c with pos := c.bytes.length }
    pure .region
  else if tag = 8 then do
    let frame ← varint
    pure (.ready frame)
  else if tag = 10 then do
    let _frame ← varint
    let _code ← varint
    let detail ← string
    pure (.fault detail)
  else
    Exec.fail (.unknownTag tag)

/-- Decode one reply; it has to be the whole datagram. -/
def decodeReply (bytes : Bytes) : Res ReplyError ControlReply :=
  ((do
    let tag ← varint
    let reply ← replyBody tag
    let c ← Exec.get
    Exec.failIf (c.pos ≠ c.bytes.length) .trailingBytes
    pure reply : Exec Cursor ReplyError ControlReply).run ⟨bytes, 0⟩).2

/-! ### What a reply looks like -/

/-- All bytes but the last have their high bit set. -/
def IsGroups : Bytes → Prop
  | [] => False
  | b :: bs => if b &&& 0x80 = 0 then bs = [] else IsGroups bs

/-- The number whose groups of seven bits are given, least significant first. -/
def varintValue : Bytes → UInt64
  | [] => 0
  | b :: bs => (b &&& 0x7F).toUInt64 ||| varintValue bs <<< 7

/-- The bytes are a varint of at most ten groups. -/
def IsVarint (w : Bytes) (v : UInt64) : Prop :=
  IsGroups w ∧ w.length ≤ 10 ∧ v = varintValue w

/-- The bytes are a string behind its length. -/
def IsString (w : Bytes) (s : Bytes) : Prop :=
  ∃ l len, w = l ++ s ∧ IsVarint l len ∧ s.length = len.toNat ∧ Utf8.isValid s = true

/-- What follows the tag of a reply. -/
def ReplyFields : ControlReply → Bytes → Prop
  | .helloAck v, w => ∃ p n e emu f emuVersion, w = p ++ (e ++ f) ∧ IsVarint p n ∧
      n.toNat < 2 ^ 16 ∧ v = n.toUInt16 ∧ IsString e emu ∧ IsString f emuVersion
  | .gameLoaded, w => ∃ h m mapper z sramSize, w = h ++ (m ++ z) ∧ h.length = 32 ∧
      IsString m mapper ∧ IsVarint z sramSize
  | .region, _ => True
  | .ready frame, w => IsVarint w frame
  | .fault detail, w => ∃ f frame c code d, w = f ++ (c ++ d) ∧ IsVarint f frame ∧
      IsVarint c code ∧ IsString d detail

/-- The tag of a reply. -/
def ControlReply.tag : ControlReply → UInt64
  | .helloAck _ => 5
  | .gameLoaded => 6
  | .region => 7
  | .ready _ => 8
  | .fault _ => 10

/-- The bytes are a reply: its tag and its fields, with nothing behind them. -/
def IsReply (w : Bytes) (r : ControlReply) : Prop :=
  ∃ t u, w = t ++ u ∧ IsVarint t r.tag ∧ ReplyFields r u

open Cursor

theorem reads_take (n : Nat) :
  Reads (take n) (fun w a => w.length = n ∧ a = w)
  := by
  intro pre b hlen c a
  rw [List.length_append] at hlen
  rw [take, Exec.run_bind_of_ok (Exec.run_get _)]
  by_cases hover : pre.length + n ≥ 2 ^ 64
  · rw [Exec.run_bind_of_err (Exec.run_failIf_of hover _)]
    constructor
    · intro h
      cases h
    · rintro ⟨w, suf, rfl, ⟨hw, _⟩, _⟩
      rw [List.length_append] at hlen
      omega
  rw [Exec.run_bind_of_ok (Exec.run_failIf_of_not hover _)]
  by_cases hshort : pre.length + n > (pre ++ b).length
  · rw [Exec.run_bind_of_err (Exec.run_failIf_of hshort _)]
    constructor
    · intro h
      cases h
    · rintro ⟨w, suf, rfl, ⟨hw, _⟩, _⟩
      simp only [List.length_append] at hshort
      omega
  rw [Exec.run_bind_of_ok (Exec.run_failIf_of_not hshort _),
    Exec.run_bind_of_ok (Exec.run_set _ _), Exec.run_pure]
  have hext : (pre ++ b).extract pre.length (pre.length + n) = b.take n := by
    rw [Bytes.extract, List.drop_left, Nat.add_sub_cancel_left]
  have hn : n ≤ b.length := by
    rw [List.length_append] at hshort
    omega
  rw [hext]
  constructor
  · intro h
    obtain ⟨rfl, ha⟩ := Prod.mk.inj h
    obtain rfl := Res.ok.inj ha
    have htake : (b.take n).length = n := by rw [List.length_take, Nat.min_eq_left hn]
    exact ⟨b.take n, b.drop n, (List.take_append_drop n b).symm, ⟨htake, rfl⟩, by rw [htake]⟩
  · rintro ⟨w, suf, rfl, ⟨rfl, rfl⟩, rfl⟩
    rw [List.take_left]

/-- The shift of the next round. -/
theorem shift_succ (k : Nat) :
  UInt64.ofNat (7 * k) + 7 = UInt64.ofNat (7 * (k + 1))
  := by
  rw [Nat.mul_add, UInt64.ofNat_add]
  rfl

theorem toNat_shift {k : Nat} (h : k ≤ 10) :
  (UInt64.ofNat (7 * k)).toNat = 7 * k
  := UInt64.toNat_ofNat_of_lt' (Nat.lt_of_le_of_lt (Nat.mul_le_mul_left 7 h) (by decide))

theorem shift_ge_iff {k : Nat} (h : k ≤ 10) :
  UInt64.ofNat (7 * k) ≥ 64 ↔ 64 ≤ 7 * k
  := by
  rw [ge_iff_le, UInt64.le_iff_toNat_le, toNat_shift h]
  rfl

/-- A group below others: its bits go in at the shift, the others behind them. -/
theorem or_varintValue_cons {k : Nat} (h : 7 * (k + 1) < 64) (value : UInt64) (b : UInt8)
    (bs : Bytes) :
  value ||| varintValue (b :: bs) <<< UInt64.ofNat (7 * k)
    = (value ||| (b &&& 0x7F).toUInt64 <<< UInt64.ofNat (7 * k))
      ||| varintValue bs <<< UInt64.ofNat (7 * (k + 1))
  := by
  have hsum : (7 : UInt64).toNat + (UInt64.ofNat (7 * k)).toNat < 64 := by
    rw [toNat_shift (by omega)]
    exact (show 7 + 7 * k < 64 by omega)
  rw [varintValue, UInt64.shiftLeft_or, UInt64.or_assoc, ← shift_succ,
    UInt64.add_comm (UInt64.ofNat (7 * k)) 7, UInt64.shiftLeft_add_of_toNat_lt hsum]

/-- The groups at the cursor go on top of the bits read so far. -/
theorem reads_varintRounds {fuel k : Nat} (h : fuel + k = 10) (value : UInt64) :
  Reads (varintRounds fuel value (UInt64.ofNat (7 * k)))
    (fun w v => IsGroups w ∧ w.length ≤ fuel ∧ v = value ||| varintValue w <<< UInt64.ofNat (7 * k))
  := by
  induction fuel generalizing k value with
  | zero =>
      apply (reads_fail _).congr
      rintro w v
      constructor
      · exact False.elim
      · rintro ⟨hw, hlen, _⟩
        rw [List.length_eq_zero_iff.mp (Nat.le_zero.mp hlen)] at hw
        exact hw
  | succ fuel ih =>
      have hlt : ¬ UInt64.ofNat (7 * k) ≥ 64 := by
        rw [shift_ge_iff (by omega)]
        omega
      intro pre b hlen c a
      rw [varintRounds, Exec.run_bind_eq_ok]
      constructor
      · rintro ⟨t, bs, htake, hrest⟩
        obtain ⟨w, suf, rfl, ⟨hw, rfl⟩, rfl⟩ := (reads_take 1 pre b hlen t bs).mp htake
        obtain ⟨byte, rfl⟩ := List.length_eq_one_iff.mp hw
        rw [Exec.run_bind_of_ok (Exec.run_failIf_of_not hlt _)] at hrest
        by_cases hlast : byte &&& 0x80 = 0
        · rw [if_pos hlast] at hrest
          obtain ⟨rfl, hv⟩ := Prod.mk.inj hrest
          obtain rfl := Res.ok.inj hv
          refine ⟨[byte], suf, rfl, ⟨?_, by simp, ?_⟩, rfl⟩
          · rw [IsGroups, if_pos hlast]
          · simp [varintValue]
        rw [if_neg hlast, shift_succ] at hrest
        by_cases hover : UInt64.ofNat (7 * (k + 1)) ≥ 64
        · rw [if_pos hover] at hrest
          cases hrest
        have hsplit : pre ++ ([byte] ++ suf) = (pre ++ [byte]) ++ suf := by simp
        rw [if_neg hover, hsplit, ← List.length_append] at hrest
        rw [hsplit] at hlen
        rw [shift_ge_iff (by omega)] at hover
        obtain ⟨w, suf', rfl, ⟨hgroups, hwlen, rfl⟩, rfl⟩ :=
          (ih (by omega) _ _ _ hlen c a).mp hrest
        refine ⟨byte :: w, suf', rfl, ⟨?_, by rw [List.length_cons]; omega, ?_⟩, ?_⟩
        · rw [IsGroups, if_neg hlast]
          exact hgroups
        · rw [or_varintValue_cons (by omega)]
        · simp [Nat.add_assoc, Nat.add_comm 1]
      · rintro ⟨w, suf, rfl, ⟨hgroups, hwlen, rfl⟩, rfl⟩
        cases w with
        | nil => exact hgroups.elim
        | cons byte w =>
            refine ⟨⟨pre ++ (byte :: w ++ suf), pre.length + 1⟩, [byte], ?_, ?_⟩
            · apply (reads_take 1 _ _ hlen _ _).mpr
              exact ⟨[byte], w ++ suf, rfl, ⟨rfl, rfl⟩, rfl⟩
            rw [Exec.run_bind_of_ok (Exec.run_failIf_of_not hlt _)]
            rw [IsGroups] at hgroups
            by_cases hlast : byte &&& 0x80 = 0
            · rw [if_pos hlast] at hgroups
              subst hgroups
              rw [if_pos hlast, Exec.run_pure]
              simp [varintValue]
            rw [if_neg hlast] at hgroups
            -- there is a group behind this one, so that there is a round left for it
            have hpos : 0 < w.length := by
              apply List.length_pos_iff.mpr
              intro hnil
              rw [hnil] at hgroups
              exact hgroups
            rw [List.length_cons] at hwlen
            have hover : ¬ UInt64.ofNat (7 * (k + 1)) ≥ 64 := by
              rw [shift_ge_iff (by omega)]
              omega
            have hsplit : pre ++ (byte :: w ++ suf) = (pre ++ [byte]) ++ (w ++ suf) := by simp
            have hpre : pre.length + 1 = (pre ++ [byte]).length := by simp
            rw [if_neg hlast, shift_succ, if_neg hover]
            rw [hsplit] at hlen ⊢
            rw [hpre]
            apply (ih (by omega) _ _ _ hlen _ _).mpr
            refine ⟨w, suf, rfl, ⟨hgroups, by omega, ?_⟩, ?_⟩
            · rw [or_varintValue_cons (by omega)]
            · simp [Nat.add_assoc, Nat.add_comm 1]

theorem reads_varint :
  Reads varint IsVarint
  := by
  apply (reads_varintRounds (k := 0) rfl 0).congr
  intro w v
  rw [IsVarint]
  simp

theorem reads_string :
  Reads string IsString
  := by
  apply (reads_varint.bind fun len => (reads_take len.toNat).bind fun s =>
    (reads_failIf _ _).bind fun _ => reads_pure s).congr
  intro w s
  constructor
  · rintro ⟨l, _, len, rfl, hl, _, _, s', rfl, ⟨hs, rfl⟩, _, _, _, rfl, ⟨rfl, hvalid⟩, rfl, rfl⟩
    refine ⟨l, len, by simp, hl, hs, ?_⟩
    simpa using hvalid
  · rintro ⟨l, len, rfl, hl, hs, hvalid⟩
    refine ⟨l, s, len, rfl, hl, s, [], s, by simp, ⟨hs, rfl⟩, [], [], (), rfl, ⟨rfl, ?_⟩, rfl, rfl⟩
    simp [hvalid]

theorem reads_helloAck :
  Reads (do
      let protoVersion ← varint
      Exec.failIf (protoVersion.toNat ≥ 2 ^ 16) .protoVersionOverflow
      let _emu ← string
      let _emuVersion ← string
      pure (ControlReply.helloAck protoVersion.toUInt16))
    (fun w r => r.tag = 5 ∧ ReplyFields r w)
  := by
  apply (reads_varint.bind fun v => (reads_failIf (v.toNat ≥ 2 ^ 16) _).bind fun _ =>
    reads_string.bind fun _ => reads_string.bind fun _ =>
      reads_pure (ControlReply.helloAck v.toUInt16)).congr
  intro w r
  constructor
  · rintro ⟨p, _, n, rfl, hp, _, _, _, rfl, ⟨rfl, hn⟩, e, _, emu, rfl, he, f, _, emuVersion, rfl, hf,
      rfl, rfl⟩
    exact ⟨rfl, p, n, e, emu, f, emuVersion, by simp, hp, Nat.not_le.mp hn, rfl, he, hf⟩
  · rintro ⟨htag, hfields⟩
    cases r with
    | helloAck v =>
        obtain ⟨p, n, e, emu, f, emuVersion, rfl, hp, hn, rfl, he, hf⟩ := hfields
        exact ⟨p, e ++ f, n, rfl, hp, [], e ++ f, (), rfl, ⟨rfl, Nat.not_le.mpr hn⟩, e, f, emu, rfl,
          he, f, [], emuVersion, by simp, hf, rfl, rfl⟩
    | _ => cases htag

theorem reads_gameLoaded :
  Reads (do
      let _ ← take 32
      let _mapper ← string
      let _sramSize ← varint
      pure ControlReply.gameLoaded)
    (fun w r => r.tag = 6 ∧ ReplyFields r w)
  := by
  apply ((reads_take 32).bind fun _ => reads_string.bind fun _ => reads_varint.bind fun _ =>
    reads_pure ControlReply.gameLoaded).congr
  intro w r
  constructor
  · rintro ⟨h, _, _, rfl, ⟨hh, _⟩, m, _, mapper, rfl, hm, z, _, sramSize, rfl, hz, rfl, rfl⟩
    exact ⟨rfl, h, m, mapper, z, sramSize, by simp, hh, hm, hz⟩
  · rintro ⟨htag, hfields⟩
    cases r with
    | gameLoaded =>
        obtain ⟨h, m, mapper, z, sramSize, rfl, hh, hm, hz⟩ := hfields
        exact ⟨h, m ++ z, h, rfl, ⟨hh, rfl⟩, m, z, mapper, rfl, hm, z, [], sramSize, by simp, hz,
          rfl, rfl⟩
    | _ => cases htag

theorem reads_ready :
  Reads (do
      let frame ← varint
      pure (ControlReply.ready frame))
    (fun w r => r.tag = 8 ∧ ReplyFields r w)
  := by
  apply (reads_varint.bind fun frame => reads_pure (ControlReply.ready frame)).congr
  intro w r
  constructor
  · rintro ⟨p, _, frame, rfl, hp, rfl, rfl⟩
    rw [List.append_nil]
    exact ⟨rfl, hp⟩
  · rintro ⟨htag, hfields⟩
    cases r with
    | ready frame => exact ⟨w, [], frame, (List.append_nil w).symm, hfields, rfl, rfl⟩
    | _ => cases htag

theorem reads_fault :
  Reads (do
      let _frame ← varint
      let _code ← varint
      let detail ← string
      pure (ControlReply.fault detail))
    (fun w r => r.tag = 10 ∧ ReplyFields r w)
  := by
  apply (reads_varint.bind fun _ => reads_varint.bind fun _ => reads_string.bind fun detail =>
    reads_pure (ControlReply.fault detail)).congr
  intro w r
  constructor
  · rintro ⟨f, _, frame, rfl, hf, c, _, code, rfl, hc, d, _, detail, rfl, hd, rfl, rfl⟩
    exact ⟨rfl, f, frame, c, code, d, by simp, hf, hc, hd⟩
  · rintro ⟨htag, hfields⟩
    cases r with
    | fault detail =>
        obtain ⟨f, frame, c, code, d, rfl, hf, hc, hd⟩ := hfields
        exact ⟨f, c ++ d, frame, rfl, hf, c, d, code, rfl, hc, d, [], detail, by simp, hd, rfl, rfl⟩
    | _ => cases htag

/-- Behind its tag a reply is read to the end exactly when its fields are there. -/
theorem run_replyBody {pre b : Bytes} (hb : (pre ++ b).length < 2 ^ 64) {tag : UInt64}
    {r : ControlReply} :
  (∃ c, (replyBody tag).run ⟨pre ++ b, pre.length⟩ = (c, .ok r) ∧ c.pos = c.bytes.length) ↔
    r.tag = tag ∧ ReplyFields r b
  := by
  rw [replyBody]
  by_cases h5 : tag = 5
  · subst h5
    rw [if_pos rfl]
    apply reads_helloAck.run_end hb
  by_cases h6 : tag = 6
  · subst h6
    rw [if_neg h5, if_pos rfl]
    apply reads_gameLoaded.run_end hb
  by_cases h7 : tag = 7
  · subst h7
    rw [if_neg h5, if_neg h6, if_pos rfl]
    constructor
    · rintro ⟨c, hrun, _⟩
      cases hrun
      exact ⟨rfl, trivial⟩
    · rintro ⟨htag, _⟩
      cases r with
      | region => exact ⟨_, rfl, rfl⟩
      | _ => cases htag
  by_cases h8 : tag = 8
  · subst h8
    rw [if_neg h5, if_neg h6, if_neg h7, if_pos rfl]
    apply reads_ready.run_end hb
  by_cases h10 : tag = 10
  · subst h10
    rw [if_neg h5, if_neg h6, if_neg h7, if_neg h8, if_pos rfl]
    apply reads_fault.run_end hb
  rw [if_neg h5, if_neg h6, if_neg h7, if_neg h8, if_neg h10]
  constructor
  · rintro ⟨c, hrun, _⟩
    cases hrun
  · rintro ⟨rfl, _⟩
    cases r with
    | helloAck v => exact absurd rfl h5
    | gameLoaded => exact absurd rfl h6
    | region => exact absurd rfl h7
    | ready frame => exact absurd rfl h8
    | fault detail => exact absurd rfl h10

/-- A datagram is decoded exactly when it is a reply. -/
theorem decodeReply_eq_ok {b : Bytes} (hb : b.length < 2 ^ 64) {r : ControlReply} :
  decodeReply b = .ok r ↔ IsReply b r
  := by
  have hrun : decodeReply b = .ok r ↔ ∃ c tag, varint.run ⟨b, 0⟩ = (c, .ok tag) ∧
      ∃ c', (replyBody tag).run c = (c', .ok r) ∧ c'.pos = c'.bytes.length := by
    rw [decodeReply]
    rcases hv : varint.run ⟨b, 0⟩ with ⟨c, tag | e | _⟩
    · rw [Exec.run_bind_of_ok hv]
      rcases hr : (replyBody tag).run c with ⟨c', r' | e | _⟩
      · rw [Exec.run_bind_of_ok hr, Exec.run_bind_of_ok (Exec.run_get _)]
        by_cases hend : c'.pos = c'.bytes.length
        · rw [Exec.run_bind_of_ok (Exec.run_failIf_of_not (not_not.mpr hend) _)]
          simp [hr, hend]
        · rw [Exec.run_bind_of_err (Exec.run_failIf_of hend _)]
          simp [hr, hend]
      · rw [Exec.run_bind_of_err hr]
        simp [hr]
      · rw [Exec.run_bind_of_panic hr]
        simp [hr]
    · rw [Exec.run_bind_of_err hv]
      simp
    · rw [Exec.run_bind_of_panic hv]
      simp
  rw [hrun]
  constructor
  · rintro ⟨c, tag, hv, hbody⟩
    obtain ⟨t, u, rfl, ht, rfl⟩ := (reads_varint [] b hb c tag).mp hv
    rw [List.nil_append, List.length_nil, Nat.zero_add] at hbody
    obtain ⟨rfl, hfields⟩ := (run_replyBody hb).mp hbody
    exact ⟨t, u, rfl, ht, hfields⟩
  · rintro ⟨t, u, rfl, ht, hfields⟩
    refine ⟨⟨t ++ u, t.length⟩, r.tag, ?_, (run_replyBody hb).mpr ⟨rfl, hfields⟩⟩
    apply (reads_varint [] (t ++ u) hb _ _).mpr
    refine ⟨t, u, rfl, ht, ?_⟩
    rw [List.nil_append, List.length_nil, Nat.zero_add]

/-! ### The socket -/

/-- A wait for a reply. -/
inductive Leg where
  | helloAck
  | gameLoaded
  | ready
  deriving DecidableEq, Repr

/-- A milestone of the boot. -/
inductive Milestone where
  | helloack
  | gameloaded
  | rwReady
  | startSent
  deriving DecidableEq, Repr

/-- The reports of the leg to its caller. -/
inductive ControlProgress where
  | idle
  | milestone (m : Milestone)
  deriving DecidableEq, Repr

/-- Why no reply came. -/
inductive RecvError where
  | closed
  | invalidData (e : ReplyError)
  | timedOut
  deriving DecidableEq, Repr

/-- Why the leg failed. -/
inductive ControlError where
  | unsupportedProtocol (protocol : Bytes)
  | protoVersionExceedsU16 (protoVersion : UInt32)
  | recv (leg : Leg) (e : RecvError)
  | versionMismatch (found expected : UInt16)
  | fault (leg : Leg) (detail : Bytes)
  | unexpected (leg : Leg) (found : ControlReply)
  | frameNotZero (frame : UInt64)
  deriving DecidableEq, Repr

/-- Where the leg stops short of its end: it waits for a reply, or it failed. -/
inductive Stop where
  | waiting
  | failed (e : ControlError)
  deriving DecidableEq, Repr

/-- The socket: the outcomes of the polls to come, where `none` is an empty poll, the datagrams
sent so far, and the reports so far. -/
structure Socket where
  polls : List (Option Bytes)
  sent : List Bytes
  progress : List ControlProgress
  deriving DecidableEq, Repr

/-- The part of a unit's control section that the leg reads. -/
structure UnitControl where
  protocol : Bytes
  protoVersion : UInt32
  deriving DecidableEq, Repr

/-- The protocol identifier `refwork-ctl`. -/
def refworkCtl : Bytes :=
  [0x72, 0x65, 0x66, 0x77, 0x6F, 0x72, 0x6B, 0x2D, 0x63, 0x74, 0x6C]

/-- Send a datagram. -/
def send (bytes : Bytes) : Exec Socket Stop Unit :=
  Exec.modify fun s => { s with sent := s.sent ++ [bytes] }

/-- Report progress. -/
def report (p : ControlProgress) : Exec Socket Stop Unit :=
  Exec.modify fun s => { s with progress := s.progress ++ [p] }

/-- The reply of a datagram that was received.  The buffer holds `maxDatagram` bytes, and a
datagram without bytes is the end of the stream. -/
def received (b : Bytes) : Res RecvError ControlReply :=
  if b.take maxDatagram = [] then
    .err .closed
  else
    (decodeReply (b.take maxDatagram)).mapErr .invalidData

/-- Rounds of `recv`: each polls the socket once. -/
def recvRounds (leg : Leg) : Nat → Exec Socket Stop ControlReply
  | 0 => Exec.fail (.failed (.recv leg .timedOut))
  | fuel + 1 => do
      let s ← Exec.get
      match s.polls with
      | [] => Exec.fail .waiting
      | none :: rest =>
          Exec.set { s with polls := rest }
          report .idle
          recvRounds leg fuel
      | some b :: rest =>
          Exec.set { s with polls := rest }
          Exec.lift ((received b).mapErr fun e => .failed (.recv leg e))

/-- Wait for a reply. -/
def recv (leg : Leg) : Exec Socket Stop ControlReply := recvRounds leg recvWakeLimit

/-- Wait for a reply that announces no region.  A round takes a poll, so that there are no more
rounds than polls. -/
def recvPastRegions (leg : Leg) : Nat → Exec Socket Stop ControlReply
  | 0 => Exec.fail .waiting
  | fuel + 1 => do
      match ← recv leg with
      | .region => recvPastRegions leg fuel
      | reply => pure reply

/-- Wait for a reply that announces no region, however many do. -/
def recvReply (leg : Leg) : Exec Socket Stop ControlReply := do
  let s ← Exec.get
  recvPastRegions leg (s.polls.length + 1)

/-- Wait for a `HelloAck` of the given version. -/
def awaitHelloAck (protoVersion : UInt16) : Exec Socket Stop Unit := do
  match ← recv .helloAck with
  | .helloAck replyVersion =>
      Exec.failIf (replyVersion ≠ protoVersion)
        (.failed (.versionMismatch replyVersion protoVersion))
  | .fault detail => Exec.fail (.failed (.fault .helloAck detail))
  | other => Exec.fail (.failed (.unexpected .helloAck other))

/-- Wait for `GameLoaded`. -/
def awaitGameLoaded : Exec Socket Stop Unit := do
  match ← recvReply .gameLoaded with
  | .gameLoaded => pure ()
  | .fault detail => Exec.fail (.failed (.fault .gameLoaded detail))
  | other => Exec.fail (.failed (.unexpected .gameLoaded other))

/-- Wait for `Ready` of frame zero. -/
def awaitReady : Exec Socket Stop Unit := do
  match ← recvReply .ready with
  | .ready frame => Exec.failIf (frame ≠ 0) (.failed (.frameNotZero frame))
  | .fault detail => Exec.fail (.failed (.fault .ready detail))
  | other => Exec.fail (.failed (.unexpected .ready other))

/-- Drive the workload from `Hello` to `Start`. -/
def driveRefworkStart (control : UnitControl) (gamePath : Bytes) : Exec Socket Stop Unit := do
  Exec.failIf (control.protocol ≠ refworkCtl) (.failed (.unsupportedProtocol control.protocol))
  Exec.failIf (control.protoVersion.toNat ≥ 2 ^ 16)
    (.failed (.protoVersionExceedsU16 control.protoVersion))
  let protoVersion := control.protoVersion.toUInt16
  send (encodeHello protoVersion)
  awaitHelloAck protoVersion
  report (.milestone .helloack)
  send (encodeLoadGame gamePath)
  awaitGameLoaded
  report (.milestone .gameloaded)
  awaitReady
  report (.milestone .rwReady)
  send encodeStart
  report (.milestone .startSent)

end Control

end Agent
