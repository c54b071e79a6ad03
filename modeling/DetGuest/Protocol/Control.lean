import Mathlib.Data.List.TakeWhile
import DetGuest.Agent.Control

/-!
# The control leg

The leg sends `Hello`, `LoadGame` and `Start` in this order and stops where a reply is not the
one it waits for.  It comes to its end exactly on the replies `HelloAck` with the right version,
`GameLoaded` and `Ready` of frame zero, with region announcements anywhere behind the first.
-/

namespace Protocol.Control

open Agent Agent.Control

/-! ### Decoding never panics -/

theorem total_take (n : Nat) :
  Exec.Total (take n)
  := by
  apply Exec.total_get.bind
  intro c
  apply (Exec.total_failIf _ _).bind
  intro _
  apply (Exec.total_failIf _ _).bind
  intro _
  apply (Exec.total_set _).bind
  intro _
  apply Exec.total_pure

theorem total_varintRounds (fuel : Nat) (value shift : UInt64) :
  Exec.Total (varintRounds fuel value shift)
  := by
  induction fuel generalizing value shift with
  | zero => apply Exec.total_fail
  | succ fuel ih =>
      apply (total_take 1).bind
      intro bs
      cases bs with
      | nil => apply Exec.total_fail
      | cons byte bs =>
          apply (Exec.total_failIf _ _).bind
          intro _
          apply (Exec.total_pure _).ite
          apply (Exec.total_fail _).ite
          apply ih

theorem total_varint : Exec.Total varint := total_varintRounds 10 0 0

theorem total_string :
  Exec.Total Control.string
  := by
  apply total_varint.bind
  intro len
  apply (total_take _).bind
  intro bytes
  apply (Exec.total_failIf _ _).bind
  intro _
  apply Exec.total_pure

theorem total_replyBody (tag : UInt64) :
  Exec.Total (replyBody tag)
  := by
  apply Exec.Total.ite
  · exact total_varint.bind fun _ => (Exec.total_failIf _ _).bind fun _ =>
      total_string.bind fun _ => total_string.bind fun _ => Exec.total_pure _
  apply Exec.Total.ite
  · exact (total_take 32).bind fun _ => total_string.bind fun _ => total_varint.bind fun _ =>
      Exec.total_pure _
  apply Exec.Total.ite
  · exact (Exec.total_modify _).bind fun _ => Exec.total_pure _
  apply Exec.Total.ite
  · exact total_varint.bind fun _ => Exec.total_pure _
  apply Exec.Total.ite
  · exact total_varint.bind fun _ => total_varint.bind fun _ => total_string.bind fun _ =>
      Exec.total_pure _
  · apply Exec.total_fail

theorem decodeReply_ne_panic (b : Bytes) :
  decodeReply b ≠ .panic
  := by
  rw [decodeReply]
  apply total_varint.bind
  intro tag
  apply (total_replyBody tag).bind
  intro reply
  apply Exec.total_get.bind
  intro c
  apply (Exec.total_failIf _ _).bind
  intro _
  apply Exec.total_pure

/-- What a poll with a datagram gives: its reply, or an error. -/
theorem received_eq {b : Bytes} (h : b.length ≤ maxDatagram) :
  (∃ r, received b = .ok r ∧ decodeReply b = .ok r) ∨
    ∃ e, received b = .err e ∧ ∀ r, decodeReply b ≠ .ok r
  := by
  rw [received, List.take_of_length_le h]
  by_cases hnil : b = []
  · right
    subst hnil
    rw [if_pos rfl]
    have hempty : decodeReply [] = .err .truncated := by decide
    refine ⟨_, rfl, ?_⟩
    intro r
    rw [hempty]
    simp
  rw [if_neg hnil]
  cases hd : decodeReply b with
  | ok r =>
      left
      exact ⟨r, rfl, rfl⟩
  | err e =>
      right
      exact ⟨_, rfl, by simp⟩
  | panic => exact absurd hd (decodeReply_ne_panic b)

/-! ### Waiting for replies -/

/-- The datagrams that are still to come. -/
def replies (s : Socket) : List Bytes := s.polls.filterMap id

/-- No datagram is too long for the buffer, and the limit of polls is not hit. -/
structure Calm (s : Socket) : Prop where
  short : ∀ b, some b ∈ s.polls → b.length ≤ maxDatagram
  awake : ¬ List.replicate recvWakeLimit none <:+: s.polls

/-- The datagram announces a region. -/
def isRegion (b : Bytes) : Bool := decodeReply b = .ok .region

/-- What a wait makes of the socket: it polls on and sends nothing. -/
structure Polled (s s' : Socket) : Prop where
  calm : Calm s'
  sent : s'.sent = s.sent
  fewer : s'.polls.length ≤ s.polls.length

theorem Calm.tail {p : Option Bytes} {rest : List (Option Bytes)} {sent : List Bytes}
    {progress : List ControlProgress} {s : Socket} (h : Calm s) (hs : s.polls = p :: rest) :
  Calm ⟨rest, sent, progress⟩
  := by
  constructor
  · intro b hb
    apply h.short b
    rw [hs]
    exact List.mem_cons_of_mem p hb
  · intro hinf
    apply h.awake
    rw [hs]
    exact hinf.trans (List.suffix_cons p rest).isInfix

/-- The next datagram ends a wait; without one the wait goes on. -/
theorem run_recvRounds (leg : Leg) {fuel : Nat} {s : Socket} (hs : Calm s)
    (hfuel : ¬ List.replicate fuel none <+: s.polls) :
  ∃ s', Polled s s' ∧
    match replies s with
    | [] => s'.polls = [] ∧ (recvRounds leg fuel).run s = (s', .err .waiting)
    | b :: rest => replies s' = rest ∧ s'.polls.length < s.polls.length ∧
        b.length ≤ maxDatagram ∧
        (recvRounds leg fuel).run s = (s', (received b).mapErr fun e => .failed (.recv leg e))
  := by
  induction fuel generalizing s with
  | zero => exact absurd (List.nil_prefix) hfuel
  | succ fuel ih =>
      obtain ⟨polls, sent, progress⟩ := s
      rw [recvRounds, Exec.run_bind_of_ok (Exec.run_get _)]
      match polls, hs, hfuel with
      | [], hs, hfuel => exact ⟨_, ⟨hs, rfl, Nat.le_refl _⟩, rfl, rfl⟩
      | none :: rest, hs, hfuel =>
          have hnext : ¬ List.replicate fuel none <+: rest := by
            intro hpre
            apply hfuel
            rw [List.replicate_succ]
            exact (List.prefix_cons_inj none).mpr hpre
          have hcalm : Calm ⟨rest, sent, progress ++ [.idle]⟩ := hs.tail rfl
          obtain ⟨s', hpolled, hout⟩ := ih hcalm hnext
          have hfewer := hpolled.fewer
          refine ⟨s', ⟨hpolled.calm, hpolled.sent, ?_⟩, ?_⟩
          · rw [List.length_cons]
            exact Nat.le_succ_of_le hfewer
          have hsame : replies ⟨none :: rest, sent, progress⟩
              = replies ⟨rest, sent, progress ++ [.idle]⟩ := rfl
          rw [hsame]
          cases hr : replies ⟨rest, sent, progress ++ [.idle]⟩ with
          | nil =>
              rw [hr] at hout
              exact hout
          | cons b bs =>
              rw [hr] at hout
              obtain ⟨hrest, hlt, hshort, hrun⟩ := hout
              exact ⟨hrest, Nat.lt_succ_of_lt hlt, hshort, hrun⟩
      | some b :: rest, hs, hfuel =>
          refine ⟨⟨rest, sent, progress⟩, ⟨hs.tail rfl, rfl, Nat.le_succ _⟩, rfl,
            Nat.lt_succ_self _, hs.short b List.mem_cons_self, rfl⟩

theorem run_recv (leg : Leg) {s : Socket} (hs : Calm s) :
  ∃ s', Polled s s' ∧
    match replies s with
    | [] => s'.polls = [] ∧ (recv leg).run s = (s', .err .waiting)
    | b :: rest => replies s' = rest ∧ s'.polls.length < s.polls.length ∧
        b.length ≤ maxDatagram ∧
        (recv leg).run s = (s', (received b).mapErr fun e => .failed (.recv leg e))
  := by
  apply run_recvRounds leg hs
  intro hpre
  exact hs.awake hpre.isInfix

/-- The first datagram that announces no region ends a wait that skips regions. -/
theorem run_recvPastRegions (leg : Leg) {fuel : Nat} {s : Socket} (hs : Calm s)
    (hfuel : s.polls.length < fuel) :
  ∃ s', Polled s s' ∧
    match (replies s).dropWhile isRegion with
    | [] => s'.polls = [] ∧ (recvPastRegions leg fuel).run s = (s', .err .waiting)
    | b :: rest => replies s' = rest ∧ b.length ≤ maxDatagram ∧ isRegion b = false ∧
        (recvPastRegions leg fuel).run s
          = (s', (received b).mapErr fun e => .failed (.recv leg e))
  := by
  induction fuel generalizing s with
  | zero => exact absurd hfuel (Nat.not_lt_zero _)
  | succ fuel ih =>
      obtain ⟨s₁, hpolled, hout⟩ := run_recv leg hs
      rw [recvPastRegions]
      cases hr : replies s with
      | nil =>
          rw [hr] at hout
          refine ⟨s₁, hpolled, hout.1, ?_⟩
          rw [Exec.run_bind_of_err hout.2]
      | cons b rest =>
          rw [hr] at hout
          obtain ⟨hrest, hlt, hshort, hrun⟩ := hout
          by_cases hregion : isRegion b = true
          · -- a region is skipped, and the wait goes on behind it
            have hd : decodeReply b = .ok .region := of_decide_eq_true hregion
            have hrec : received b = .ok .region := by
              rcases received_eq hshort with ⟨r, hr', hdr⟩ | ⟨e, _, hne⟩
              · rw [hr', Res.ok.inj (hdr.symm.trans hd)]
              · exact absurd hd (hne _)
            rw [hrec] at hrun
            obtain ⟨s₂, hpolled₂, hout₂⟩ := ih hpolled.calm (by omega)
            have hfewer := hpolled.fewer
            have hfewer₂ := hpolled₂.fewer
            refine ⟨s₂, ⟨hpolled₂.calm, hpolled₂.sent.trans hpolled.sent, by omega⟩, ?_⟩
            rw [List.dropWhile_cons_of_pos hregion, ← hrest, Exec.run_bind_of_ok hrun]
            exact hout₂
          · have hother : isRegion b = false := Bool.eq_false_iff.mpr hregion
            refine ⟨s₁, hpolled, ?_⟩
            rw [List.dropWhile_cons_of_neg hregion]
            refine ⟨hrest, hshort, hother, ?_⟩
            rcases received_eq hshort with ⟨r, hr', hdr⟩ | ⟨e, he, _⟩
            · rw [hr'] at hrun ⊢
              rw [Exec.run_bind_of_ok hrun]
              cases r with
              | region => exact absurd hdr (of_decide_eq_false hother)
              | _ => rfl
            · rw [he] at hrun ⊢
              rw [Exec.run_bind_of_err hrun]
              rfl

theorem run_recvReply (leg : Leg) {s : Socket} (hs : Calm s) :
  ∃ s', Polled s s' ∧
    match (replies s).dropWhile isRegion with
    | [] => s'.polls = [] ∧ (recvReply leg).run s = (s', .err .waiting)
    | b :: rest => replies s' = rest ∧ b.length ≤ maxDatagram ∧ isRegion b = false ∧
        (recvReply leg).run s = (s', (received b).mapErr fun e => .failed (.recv leg e))
  := by
  rw [recvReply, Exec.run_bind_of_ok (Exec.run_get _)]
  apply run_recvPastRegions leg hs (Nat.lt_succ_self _)

/-! ### The three waits -/

/-- The first reply is a `HelloAck` of the given version; `l'` follows it. -/
def Greeted (v : UInt16) (l l' : List Bytes) : Prop :=
  ∃ h, l = h :: l' ∧ decodeReply h = .ok (.helloAck v)

/-- Behind any number of region announcements stands the wanted reply; `l'` follows it. -/
def Past (want : ControlReply) (l l' : List Bytes) : Prop :=
  ∃ rs g, l = rs ++ g :: l' ∧ (∀ x ∈ rs, decodeReply x = .ok .region) ∧ decodeReply g = .ok want

theorem dropWhile_regions {rs l : List Bytes} (h : ∀ x ∈ rs, decodeReply x = .ok .region) :
  (rs ++ l).dropWhile isRegion = l.dropWhile isRegion
  := by
  induction rs with
  | nil => rfl
  | cons r rs ih =>
      have hr : isRegion r = true := decide_eq_true (h r List.mem_cons_self)
      rw [List.cons_append, List.dropWhile_cons_of_pos hr]
      apply ih
      intro x hx
      exact h x (List.mem_cons_of_mem r hx)

theorem past_iff {want : ControlReply} (hwant : want ≠ .region) {l l' : List Bytes} :
  Past want l l' ↔ ∃ g, l.dropWhile isRegion = g :: l' ∧ decodeReply g = .ok want
  := by
  constructor
  · rintro ⟨rs, g, rfl, hrs, hg⟩
    have hother : ¬ isRegion g = true := by
      intro hregion
      have hd : decodeReply g = .ok .region := of_decide_eq_true hregion
      exact hwant (Res.ok.inj (hg.symm.trans hd))
    exact ⟨g, by rw [dropWhile_regions hrs, List.dropWhile_cons_of_neg hother], hg⟩
  · rintro ⟨g, hdrop, hg⟩
    refine ⟨l.takeWhile isRegion, g, ?_, ?_, hg⟩
    · rw [← hdrop, List.takeWhile_append_dropWhile]
    · intro x hx
      exact of_decide_eq_true (List.mem_takeWhile_imp (p := isRegion) hx)

/-- A wait that ends well exactly when the replies fit, and otherwise fails or goes on until
the replies end. -/
def Awaits (x : Exec Socket Stop Unit) (A : List Bytes → List Bytes → Prop) : Prop :=
  ∀ s, Calm s → ∃ s', Calm s' ∧ s'.sent = s.sent ∧
    ((A (replies s) (replies s') ∧ x.run s = (s', .ok ())) ∨
      ((∀ l', ¬ A (replies s) l') ∧
        ∃ stop, x.run s = (s', .err stop) ∧ (stop = .waiting → s'.polls = [])))

theorem awaits_awaitHelloAck (v : UInt16) :
  Awaits (awaitHelloAck v) (Greeted v)
  := by
  intro s hs
  obtain ⟨s', hpolled, hout⟩ := run_recv .helloAck hs
  refine ⟨s', hpolled.calm, hpolled.sent, ?_⟩
  rw [awaitHelloAck]
  cases hr : replies s with
  | nil =>
      rw [hr] at hout
      right
      refine ⟨?_, .waiting, Exec.run_bind_of_err hout.2, fun _ => hout.1⟩
      rintro l' ⟨h, hl, _⟩
      cases hl
  | cons h rest =>
      rw [hr] at hout
      obtain ⟨rfl, _, hshort, hrun⟩ := hout
      rcases received_eq hshort with ⟨r, hrec, hd⟩ | ⟨e, hrec, hne⟩
      · rw [hrec] at hrun
        -- any other reply than the wanted one fails the wait
        have hother : r ≠ .helloAck v → ∀ l', ¬ Greeted v (h :: replies s') l' := by
          rintro hr' l' ⟨h', hl, hd'⟩
          obtain ⟨rfl, rfl⟩ := List.cons.inj hl
          exact hr' (Res.ok.inj (hd.symm.trans hd'))
        rw [Exec.run_bind_of_ok hrun]
        cases r with
        | helloAck v' =>
            by_cases hv : v' = v
            · left
              subst hv
              exact ⟨⟨h, rfl, hd⟩, Exec.run_failIf_of_not (not_not.mpr rfl) _⟩
            · right
              refine ⟨hother (by simp [hv]), _, Exec.run_failIf_of hv _, ?_⟩
              simp
        | _ =>
            right
            exact ⟨hother (by simp), _, rfl, by simp⟩
      · right
        rw [hrec] at hrun
        refine ⟨?_, _, Exec.run_bind_of_err hrun, by simp⟩
        rintro l' ⟨h', hl, hd'⟩
        obtain ⟨rfl, rfl⟩ := List.cons.inj hl
        exact hne _ hd'

/-- A wait behind region announcements, from what it does with the reply that ends it. -/
theorem awaits_recvReply (leg : Leg) {want : ControlReply} (hwant : want ≠ .region)
    {f : ControlReply → Exec Socket Stop Unit} (hok : f want = pure ())
    (hfail : ∀ r, r ≠ want → r ≠ .region → ∃ e, f r = Exec.fail (.failed e)) :
  Awaits (recvReply leg >>= f) (Past want)
  := by
  intro s hs
  obtain ⟨s', hpolled, hout⟩ := run_recvReply leg hs
  refine ⟨s', hpolled.calm, hpolled.sent, ?_⟩
  simp only [past_iff hwant]
  cases hr : (replies s).dropWhile isRegion with
  | nil =>
      rw [hr] at hout
      right
      refine ⟨?_, .waiting, Exec.run_bind_of_err hout.2, fun _ => hout.1⟩
      rintro l' ⟨g, hl, _⟩
      cases hl
  | cons g rest =>
      rw [hr] at hout
      obtain ⟨rfl, hshort, hregion, hrun⟩ := hout
      rcases received_eq hshort with ⟨r, hrec, hd⟩ | ⟨e, hrec, hne⟩
      · rw [hrec] at hrun
        rw [Exec.run_bind_of_ok hrun]
        by_cases hr' : r = want
        · left
          subst hr'
          refine ⟨⟨g, rfl, hd⟩, ?_⟩
          rw [hok, Exec.run_pure]
        · right
          have hne : r ≠ .region := by
            rintro rfl
            exact absurd hd (of_decide_eq_false hregion)
          obtain ⟨e, he⟩ := hfail r hr' hne
          refine ⟨?_, .failed e, by rw [he, Exec.run_fail], by simp⟩
          rintro l' ⟨g', hl, hd'⟩
          obtain ⟨rfl, rfl⟩ := List.cons.inj hl
          exact hr' (Res.ok.inj (hd.symm.trans hd'))
      · right
        rw [hrec] at hrun
        refine ⟨?_, _, Exec.run_bind_of_err hrun, by simp⟩
        rintro l' ⟨g', hl, hd'⟩
        obtain ⟨rfl, rfl⟩ := List.cons.inj hl
        exact hne _ hd'

theorem awaits_awaitGameLoaded :
  Awaits awaitGameLoaded (Past .gameLoaded)
  := by
  apply awaits_recvReply .gameLoaded (by simp) rfl
  intro r hr hregion
  cases r with
  | gameLoaded => exact absurd rfl hr
  | _ => exact ⟨_, rfl⟩

theorem awaits_awaitReady :
  Awaits awaitReady (Past (.ready 0))
  := by
  apply awaits_recvReply .ready (by simp)
  · exact if_neg (not_not.mpr rfl)
  intro r hr hregion
  cases r with
  | ready frame =>
      have hframe : frame ≠ 0 := by
        rintro rfl
        exact hr rfl
      exact ⟨_, if_pos hframe⟩
  | _ => exact ⟨_, rfl⟩

/-! ### The leg -/

/-- The replies begin with `HelloAck`, any number of regions, `GameLoaded`, any number of
regions and `Ready` of frame zero. -/
def Accepted (v : UInt16) (l : List Bytes) : Prop :=
  ∃ l₁ l₂ l₃, Greeted v l l₁ ∧ Past .gameLoaded l₁ l₂ ∧ Past (.ready 0) l₂ l₃

theorem Greeted.unique {v : UInt16} {l l₁ l₂ : List Bytes} (h₁ : Greeted v l l₁)
    (h₂ : Greeted v l l₂) :
  l₁ = l₂
  := by
  obtain ⟨h, rfl, _⟩ := h₁
  obtain ⟨h', hl, _⟩ := h₂
  exact (List.cons.inj hl).2

theorem Past.unique {want : ControlReply} (hwant : want ≠ .region) {l l₁ l₂ : List Bytes}
    (h₁ : Past want l l₁) (h₂ : Past want l l₂) :
  l₁ = l₂
  := by
  obtain ⟨g, hl, _⟩ := (past_iff hwant).mp h₁
  obtain ⟨g', hl', _⟩ := (past_iff hwant).mp h₂
  exact (List.cons.inj (hl.symm.trans hl')).2

theorem Calm.update {s : Socket} (h : Calm s) (sent : List Bytes) (progress : List ControlProgress) :
  Calm { s with sent, progress }
  := ⟨h.short, h.awake⟩

theorem run_send (bytes : Bytes) (s : Socket) :
  (send bytes).run s = ({ s with sent := s.sent ++ [bytes] }, .ok ())
  := rfl

theorem run_report (p : ControlProgress) (s : Socket) :
  (report p).run s = ({ s with progress := s.progress ++ [p] }, .ok ())
  := rfl

/-- A leg that stopped short of its end. -/
structure Short (out : Socket × Res Stop Unit) (sent : List Bytes) : Prop where
  sent : out.1.sent = sent
  stopped : ∃ stop, out.2 = .err stop
  ended : out.2 = .err .waiting → out.1.polls = []

/-- The leg comes to its end on accepted replies.  Otherwise it stops, and `LoadGame` was sent
only behind a `HelloAck`. -/
theorem run_driveRefworkStart {control : UnitControl} {gamePath : Bytes} {s : Socket}
    (hproto : control.protocol = refworkCtl) (hversion : control.protoVersion.toNat < 2 ^ 16)
    (hs : Calm s) (hsent : s.sent = []) :
  let v := control.protoVersion.toUInt16
  let out := (driveRefworkStart control gamePath).run s
  (Accepted v (replies s) ∧ out.2 = .ok () ∧
      out.1.sent = [encodeHello v, encodeLoadGame gamePath, encodeStart]) ∨
    (¬ Accepted v (replies s) ∧ Short out [encodeHello v]) ∨
    (¬ Accepted v (replies s) ∧ (∃ l, Greeted v (replies s) l) ∧
      Short out [encodeHello v, encodeLoadGame gamePath])
  := by
  intro v out
  have hout : out = (driveRefworkStart control gamePath).run s := rfl
  rw [driveRefworkStart, Exec.run_bind_of_ok (Exec.run_failIf_of_not (not_not.mpr hproto) _),
    Exec.run_bind_of_ok (Exec.run_failIf_of_not (Nat.not_le.mpr hversion) _)] at hout
  dsimp only at hout
  rw [Exec.run_bind_of_ok (run_send _ _)] at hout
  obtain ⟨s₁, hs₁, hsent₁, ⟨hgreet, hrun₁⟩ | ⟨hno, stop, hrun₁, hended⟩⟩ :=
    awaits_awaitHelloAck v _ (hs.update (s.sent ++ [encodeHello v]) s.progress)
  swap
  · right
    left
    rw [Exec.run_bind_of_err hrun₁] at hout
    refine ⟨?_, ?_⟩
    · rintro ⟨l₁, _, _, hgreet, _⟩
      exact hno l₁ hgreet
    · rw [hout]
      refine ⟨by simp [hsent₁, hsent], ⟨stop, rfl⟩, ?_⟩
      rintro ⟨rfl⟩
      exact hended rfl
  rw [Exec.run_bind_of_ok hrun₁, Exec.run_bind_of_ok (run_report _ _),
    Exec.run_bind_of_ok (run_send _ _)] at hout
  obtain ⟨s₂, hs₂, hsent₂, ⟨hload, hrun₂⟩ | ⟨hno, stop, hrun₂, hended⟩⟩ :=
    awaits_awaitGameLoaded _ (hs₁.update (s₁.sent ++ [encodeLoadGame gamePath])
      (s₁.progress ++ [.milestone .helloack]))
  swap
  · right
    right
    rw [Exec.run_bind_of_err hrun₂] at hout
    refine ⟨?_, ⟨_, hgreet⟩, ?_⟩
    · rintro ⟨l₁, l₂, _, hgreet', hload, _⟩
      obtain rfl := hgreet.unique hgreet'
      exact hno l₂ hload
    · rw [hout]
      refine ⟨by simp [hsent₂, hsent₁, hsent], ⟨stop, rfl⟩, ?_⟩
      rintro ⟨rfl⟩
      exact hended rfl
  rw [Exec.run_bind_of_ok hrun₂, Exec.run_bind_of_ok (run_report _ _)] at hout
  obtain ⟨s₃, hs₃, hsent₃, ⟨hready, hrun₃⟩ | ⟨hno, stop, hrun₃, hended⟩⟩ :=
    awaits_awaitReady _ (hs₂.update s₂.sent (s₂.progress ++ [.milestone .gameloaded]))
  swap
  · right
    right
    rw [Exec.run_bind_of_err hrun₃] at hout
    refine ⟨?_, ⟨_, hgreet⟩, ?_⟩
    · rintro ⟨l₁, l₂, l₃, hgreet', hload', hready⟩
      obtain rfl := hgreet.unique hgreet'
      obtain rfl := hload.unique (by simp) hload'
      exact hno l₃ hready
    · rw [hout]
      refine ⟨by simp [hsent₃, hsent₂, hsent₁, hsent], ⟨stop, rfl⟩, ?_⟩
      rintro ⟨rfl⟩
      exact hended rfl
  left
  rw [Exec.run_bind_of_ok hrun₃, Exec.run_bind_of_ok (run_report _ _),
    Exec.run_bind_of_ok (run_send _ _), run_report] at hout
  refine ⟨⟨_, _, _, hgreet, hload, hready⟩, ?_, ?_⟩
  · rw [hout]
  · rw [hout]
    simp [hsent₃, hsent₂, hsent₁, hsent]

/-- What the leg sends is a prefix of `Hello`, `LoadGame` and `Start`.  `LoadGame` is sent only
behind a `HelloAck` of the agent's version.  The leg sends `Start` and returns exactly on the
accepted replies; on all others it returns an error or still waits when they end.  A datagram is
a reply exactly when it is the tag and the fields of one. -/
theorem control_leg
    {control : UnitControl} {gamePath : Bytes} {polls : List (Option Bytes)}
    (hproto : control.protocol = refworkCtl) (hversion : control.protoVersion.toNat < 2 ^ 16)
    (hshort : ∀ b, some b ∈ polls → b.length ≤ maxDatagram)
    (hawake : ¬ List.replicate recvWakeLimit none <:+: polls) :
  let v := control.protoVersion.toUInt16
  let l := polls.filterMap id
  let out := (driveRefworkStart control gamePath).run ⟨polls, [], []⟩
  let dialogue := [encodeHello v, encodeLoadGame gamePath, encodeStart]
  out.1.sent <+: dialogue ∧
  (1 < out.1.sent.length → ∃ h rest, l = h :: rest ∧ decodeReply h = .ok (.helloAck v)) ∧
  (out.1.sent = dialogue ↔ Accepted v l) ∧
  (out.2 = .ok () ↔ Accepted v l) ∧
  (¬ Accepted v l → ∃ stop, out.2 = .err stop ∧ (stop = .waiting → out.1.polls = [])) ∧
  ∀ b r, b.length ≤ maxDatagram → (decodeReply b = .ok r ↔ IsReply b r)
  := by
  intro v l out dialogue
  have hreply : ∀ b r, b.length ≤ maxDatagram → (decodeReply b = .ok r ↔ IsReply b r) :=
    fun b r hb => decodeReply_eq_ok (Nat.lt_of_le_of_lt hb (by decide))
  have hstart : Calm ⟨polls, [], []⟩ := ⟨hshort, hawake⟩
  have hrun := @run_driveRefworkStart control gamePath _ hproto hversion hstart rfl
  rcases hrun with
    ⟨hacc, hok, hsent⟩ | ⟨hacc, hstop⟩ | ⟨hacc, ⟨l₁, hgreet⟩, hstop⟩
  · refine ⟨?_, ?_, ⟨fun _ => hacc, fun _ => hsent⟩, ⟨fun _ => hacc, fun _ => hok⟩,
      fun hno => absurd hacc hno, hreply⟩
    · exact ⟨[], (List.append_nil _).trans hsent⟩
    intro _
    obtain ⟨l₁, _, _, ⟨h, hl, hd⟩, _⟩ := hacc
    exact ⟨h, l₁, hl, hd⟩
  · obtain ⟨stop, herr⟩ := hstop.stopped
    refine ⟨?_, ?_, ⟨?_, fun h => absurd h hacc⟩, ⟨?_, fun h => absurd h hacc⟩, ?_, hreply⟩
    · rw [hstop.sent]
      exact ⟨[encodeLoadGame gamePath, encodeStart], rfl⟩
    · rw [hstop.sent]
      simp
    · intro hall
      have hlen := congrArg List.length (hstop.sent.symm.trans hall)
      cases hlen
    · rw [herr]
      simp
    · intro _
      refine ⟨stop, herr, ?_⟩
      rintro rfl
      exact hstop.ended herr
  · obtain ⟨stop, herr⟩ := hstop.stopped
    refine ⟨?_, ?_, ⟨?_, fun h => absurd h hacc⟩, ⟨?_, fun h => absurd h hacc⟩, ?_, hreply⟩
    · rw [hstop.sent]
      exact ⟨[encodeStart], rfl⟩
    · intro _
      obtain ⟨h, hl, hd⟩ := hgreet
      exact ⟨h, l₁, hl, hd⟩
    · intro hall
      have hlen := congrArg List.length (hstop.sent.symm.trans hall)
      cases hlen
    · rw [herr]
      simp
    · intro _
      refine ⟨stop, herr, ?_⟩
      rintro rfl
      exact hstop.ended herr

/-- The polls of a boot: an empty one, and the replies with a region in between. -/
def bootPolls : List (Option Bytes) :=
  [none, some [5, 1, 1, 0x61, 0], some [7, 3], some (6 :: (Bytes.zeros 32 ++ [0, 0])), some [8, 0]]

theorem control_leg_boot :
  ((driveRefworkStart ⟨refworkCtl, 1⟩ [0x2F]).run ⟨bootPolls, [], []⟩).2 = .ok () ∧
    Accepted 1 (bootPolls.filterMap id)
  := by
  have hshort : ∀ b, some b ∈ bootPolls → b.length ≤ maxDatagram := by
    intro b hb
    simp only [bootPolls, List.mem_cons, List.not_mem_nil, reduceCtorEq, Option.some.injEq,
      or_false, false_or] at hb
    rcases hb with rfl | rfl | rfl | rfl <;> decide
  have hawake : ¬ List.replicate recvWakeLimit none <:+: bootPolls := by
    intro hinf
    have hlen := hinf.length_le
    rw [List.length_replicate] at hlen
    exact absurd hlen (by decide)
  have hleg := @control_leg ⟨refworkCtl, 1⟩ [0x2F] bootPolls rfl (by decide) hshort hawake
  have hok : ((driveRefworkStart ⟨refworkCtl, 1⟩ [0x2F]).run ⟨bootPolls, [], []⟩).2 = .ok () := by
    decide
  exact ⟨hok, hleg.2.2.2.1.mp hok⟩

end Protocol.Control
