import DetGuest.Host.Faults
import DetGuest.Protocol.Evidence

/-!
# Names on the rings

The SDK gives names their ids, and announces them on ring W; the agent announces the names of regions
again on ring A; the host folds the announcements of both rings into one table.  What is told about a
name, on either ring, follows its announcement, and the table of the host agrees with that of the
SDK.
-/

namespace Host

/-- The id of the name that a payload is about, when it does not announce the name. -/
def OwnedPayload.about : OwnedPayload → Option UInt32
  | .assertViolation nameId _ _ => some nameId
  | .reachable nameId => some nameId
  | .injectQuery _ nameId => some nameId
  | .regionRegister r => some r.nameId
  | .regionUpdate r => some r.nameId
  | _ => none

/-- The name that a payload announces, under its id. -/
def OwnedPayload.binds : OwnedPayload → Option (Bytes × UInt32)
  | .nameIntern nameId name _ => some (name, nameId)
  | _ => none

end Host

namespace Protocol

open Wire Host Sdk Wire.Regionipc

variable {π τ ε : Type}

/-! ### Tables of names -/

/-- Names with ids: an id belongs to one name. -/
def OneName (T : List (Bytes × UInt32)) : Prop :=
  ∀ name name' id, (name, id) ∈ T → (name', id) ∈ T → name = name'

/-- The entries of the host's table are names of `T`, and those that are marked as declared are in
`D`. -/
def Consistent (T : List (Bytes × UInt32)) (D : UInt32 → Prop) (interns : BTreeMap Host.InternEntry) :
    Prop :=
  ∀ (id : UInt32) (e : Host.InternEntry), interns[id]? = some e →
    ∃ name, (name, id) ∈ T ∧ e.name = Utf8.fromUtf8Lossy name ∧ (e.reachableDecl = true → D id)

/-- The host's table has an id, with the mark that it should have. -/
def Listed (interns : BTreeMap Host.InternEntry) (id : UInt32) (declared : Prop) : Prop :=
  ∃ e : Host.InternEntry, interns[id]? = some e ∧ (declared → e.reachableDecl = true)

/-- A record announces names of `T` only, and marks those in `D` only. -/
def Truthful (T : List (Bytes × UInt32)) (D : UInt32 → Prop) (rec : Bytes) : Prop :=
  ∀ id name decl, payloadOf rec = some (.nameIntern id name decl) →
    (name, id) ∈ T ∧ (decl = true → D id)

section Tables

variable {T T' : List (Bytes × UInt32)} {D D' : UInt32 → Prop} {ch : Channel} {rec : Bytes}
  {recs : List Bytes}

theorem Consistent.mono {interns : BTreeMap Host.InternEntry} (h : Consistent T D interns)
    (hT : ∀ b ∈ T, b ∈ T') (hD : ∀ id, D id → D' id) :
  Consistent T' D' interns
  := by
  intro id e he
  obtain ⟨name, hmem, hname, hdecl⟩ := h id e he
  exact ⟨name, hT _ hmem, hname, fun hd => hD id (hdecl hd)⟩

/-- A record that is truthful agrees with the table. -/
theorem consistent_foldRec (hT : OneName T) (h : Consistent T D ch.interns) (hrec : Truthful T D rec) :
  Consistent T D (ch.foldRec rec).interns ∧
    (ch.foldRec rec).internRedefinitions = ch.internRedefinitions
  := by
  rcases foldRec_cases ch rec with ⟨_, _, hfold⟩ | ⟨_, hfold⟩
  · rw [hfold]
    exact ⟨h, rfl⟩
  · rw [hfold]
    cases hpay : payloadOf rec with
    | none => exact ⟨h, rfl⟩
    | some owned =>
        cases owned with
        | nameIntern id name decl =>
            obtain ⟨hmem, hdecl⟩ := hrec id name decl hpay
            dsimp only
            rw [Channel.foldPayload]
            cases hid : ch.interns[id]? with
            | none =>
                refine ⟨?_, rfl⟩
                intro id' e he
                by_cases heq : id = id'
                · subst heq
                  rw [Std.ExtTreeMap.getElem?_insert_self, Option.some.injEq] at he
                  subst he
                  exact ⟨name, hmem, rfl, hdecl⟩
                · apply h id' e
                  simpa [Std.ExtTreeMap.getElem?_insert, heq] using he
            | some e =>
                obtain ⟨name', hmem', hname', hdecl'⟩ := h id e hid
                have hsame : e.name = Utf8.fromUtf8Lossy name := by
                  rw [hname', hT _ _ _ hmem' hmem]
                refine ⟨?_, by simp [hsame]⟩
                intro id' e' he
                by_cases heq : id = id'
                · subst heq
                  rw [Std.ExtTreeMap.getElem?_insert_self, Option.some.injEq] at he
                  subst he
                  refine ⟨name, hmem, hsame, ?_⟩
                  intro hor
                  rcases Bool.or_eq_true_iff.mp hor with hd | hd
                  · exact hdecl' hd
                  · exact hdecl hd
                · apply h id' e'
                  simpa [Std.ExtTreeMap.getElem?_insert, heq] using he
        | _ => exact ⟨h, rfl⟩

/-- Truthful records agree with the table. -/
theorem consistent_foldl (hT : OneName T) (h : Consistent T D ch.interns)
    (hrecs : ∀ rec ∈ recs, Truthful T D rec) :
  Consistent T D (recs.foldl Channel.foldRec ch).interns ∧
    (recs.foldl Channel.foldRec ch).internRedefinitions = ch.internRedefinitions
  := by
  induction recs generalizing ch with
  | nil => exact ⟨h, rfl⟩
  | cons rec recs ih =>
      obtain ⟨hone, hredef⟩ := consistent_foldRec hT h (hrecs rec List.mem_cons_self)
      obtain ⟨hall, hredefs⟩ := ih hone fun rec hrec => hrecs rec (List.mem_cons_of_mem _ hrec)
      exact ⟨hall, hredefs.trans hredef⟩

theorem Listed.le {a b : Channel} {id : UInt32} {declared : Prop} (h : Listed a.interns id declared)
    (hle : NamesLe a b) :
  Listed b.interns id declared
  := by
  obtain ⟨e, he, hdecl⟩ := h
  obtain ⟨e', he', _, hmark⟩ := hle.interns id e he
  exact ⟨e', he', fun hd => hmark (hdecl hd)⟩

/-- A name is known behind its announcement. -/
theorem knows_foldRec {id : UInt32} {name : Bytes} {decl : Bool}
    (hpay : payloadOf rec = some (.nameIntern id name decl)) :
  Listed (ch.foldRec rec).interns id (decl = true)
  := by
  rcases foldRec_cases ch rec with ⟨_, hnone, _⟩ | ⟨_, hfold⟩
  · rw [hpay] at hnone
    cases hnone
  · rw [hfold, hpay]
    dsimp only
    rw [Channel.foldPayload]
    cases hid : ch.interns[id]? with
    | none => exact ⟨_, Std.ExtTreeMap.getElem?_insert_self, fun hd => hd⟩
    | some e =>
        refine ⟨_, Std.ExtTreeMap.getElem?_insert_self, ?_⟩
        intro hd
        simp [hd]

/-- The names that are announced somewhere in the records are known behind them. -/
theorem knows_foldl {id : UInt32} {name : Bytes} {decl : Bool} (hmem : rec ∈ recs)
    (hpay : payloadOf rec = some (.nameIntern id name decl)) (ch : Channel) :
  Listed (recs.foldl Channel.foldRec ch).interns id (decl = true)
  := by
  obtain ⟨front, back, rfl⟩ := List.append_of_mem hmem
  rw [List.foldl_append, List.foldl_cons]
  exact (knows_foldRec hpay).le (namesLe_foldl back _)

end Tables

/-! ### What is told on a ring -/

/-- A payload on a ring, and the name that the call was given in which it was published. -/
structure Told where
  caller : Option Bytes
  payload : OwnedPayload

/-- What a record tells. -/
def Landed.told (l : Landed) : Option Told :=
  (payloadOf l.bytes).map fun payload => { caller := l.caller, payload }

/-- What was told on a ring so far. -/
def World.told (w : World π τ) (g : GuestRing) : List Told :=
  (w.landed.filter fun l => l.ring = g).filterMap Landed.told

/-- The payload is about a name. -/
def Told.needs (t : Told) : Prop := t.payload.about ≠ none

/-- The first payload announces the name that the second is about, and the second was published in a
call with that name. -/
def Told.serves (t t' : Told) : Prop :=
  ∃ name id, t.payload.binds = some (name, id) ∧ t'.payload.about = some id ∧
    t'.caller = some name

/-- The names that were announced on a ring, in order. -/
def World.announced (w : World π τ) (g : GuestRing) : List (Bytes × UInt32) :=
  (w.told g).filterMap fun t => t.payload.binds

section Told

variable {S : Setting π τ} {w : World π τ} {c : Contents} {g : GuestRing} {p : Producer}
  {new : List Bytes} {flags : UInt8} {vnanos : UInt64} {ev : EventPayload} {payload : OwnedPayload}

/-- The payload of a record is that of its event. -/
theorem payloadOf_eq (ring : RingId) (rec : Bytes) :
  payloadOf rec = (eventOf ring rec).map GuestEvent.payload
  := by
  rw [payloadOf, eventOf]
  rcases decodeEvent rec with ⟨hdr, payload⟩ | e | _
  · dsimp only
    rw [Option.map_map]
    exact (congrFun Option.map_id _).symm
  · rfl
  · rfl

/-- What the records of an event tell the host. -/
theorem payloads_eventRecs (h : Holds S.ch w.events c) (hev : ev.Encodable)
    (hnew : new = eventRecs (ringOf S.ch g.id) (w.events.mem.u32 (ringOf S.ch g.id).prod)
      (w.events.nextSeq g) vnanos flags ev) :
  new.filterMap payloadOf = (toOwned (eventFlags flags ev) ev.clip).toList
  := by
  obtain ⟨hmod, hmin⟩ := (ringOf S.ch g.id).tail_rules (h.events g).prod_aligned
  obtain ⟨_, _, hsent⟩ := pushRecs_events S.dbg g hev hmod hmin hnew
  rw [funext (payloadOf_eq g.id), ← List.map_filterMap, ← hsent, sentEvent]
  cases toOwned (eventFlags flags ev) ev.clip <;> rfl

/-- What is told behind a publication. -/
theorem told_publish (w : World π τ) (g g' : GuestRing) (p : Producer) (new : List Bytes) :
  (w.publish g p new).told g'
    = w.told g' ++ if g = g' then (new.filterMap payloadOf).map fun payload => ⟨w.caller, payload⟩
      else []
  := by
  rw [World.told, World.publish, List.filter_append, List.filterMap_append, ← World.told]
  congr 1
  by_cases hg : g = g'
  · rw [if_pos hg, List.filter_eq_self.mpr (by simp [hg]), List.filterMap_map, List.map_filterMap]
    rfl
  · rw [if_neg hg, List.filter_eq_nil_iff.mpr (by simp [hg])]
    rfl

/-- Clipping a payload leaves the name that it is about and the name that it announces. -/
theorem toOwned_names {flags : UInt8} (h : toOwned flags ev.clip = some payload) :
  payload.about = ev.about ∧
    payload.binds = (match ev with
      | .nameIntern nameId name => some (name, nameId)
      | _ => none)
  := by
  cases ev <;> cases h <;> exact ⟨rfl, rfl⟩

end Told

/-! ### The invariant -/

/-- The names of `T` were announced on ring W, those in `D` as declared; what is told about a name
follows its announcement on the same ring; and the host has all of them in its table or will get
them with the next drain.  All detcalls succeed, and the host has counted `redefs` redefinitions. -/
structure Naming (S : Setting π τ) (redefs : Nat) (D : UInt32 → Prop) (T : List (Bytes × UInt32))
    (w : World π τ) (c : Contents) : Prop where
  holds : Holds S.ch w.events c
  bells : ∀ b ∈ w.bells, b.answers = true
  once : OneName T
  preceded : ∀ g, Log.Preceded Told.needs Told.serves (w.told g)
  announced : w.announced .W = T
  bound : ∀ g, ∀ t ∈ w.told g, ∀ id name decl, t.payload = .nameIntern id name decl →
    (name, id) ∈ T ∧ (decl = true → D id)
  declared : ∀ t ∈ w.told .W, ∀ id name decl, t.payload = .nameIntern id name decl →
    (D id → decl = true)
  marked : ∀ id, D id → ∃ name, (name, id) ∈ T
  flow : ∀ g, ∀ rec ∈ c.events g, ∀ payload, payloadOf rec = some payload →
    ∃ t ∈ w.told g, t.payload = payload
  consistent : Consistent T D w.events.host.ch.interns
  known : ∀ name id, (name, id) ∈ T → Listed w.events.host.ch.interns id (D id) ∨
    ∃ rec ∈ c.events .W, ∃ decl, payloadOf rec = some (.nameIntern id name decl)
  redefinitions : w.events.host.ch.internRedefinitions = redefs
  drained : ∀ d ∈ w.drained, ∃ evs, d.res = .ok evs ∧ ∀ ev ∈ evs, ∀ id,
    ev.payload.about = some id →
      ∃ name, (name, id) ∈ T ∧ d.ch.internName id = some (Utf8.fromUtf8Lossy name)

section Naming

variable {S : Setting π τ} {redefs : Nat} {D D' : UInt32 → Prop} {T : List (Bytes × UInt32)}
  {w : World π τ} {c : Contents} {g : GuestRing} {p : Producer} {new : List Bytes} {flags : UInt8}
  {vnanos : UInt64} {ev : EventPayload} {name : Bytes} {id : UInt32}

/-- The records on the rings are truthful. -/
theorem Naming.truthful (h : Naming S redefs D T w c) (g : GuestRing) :
  ∀ rec ∈ c.events g, Truthful T D rec
  := by
  intro rec hrec id name decl hpay
  obtain ⟨t, ht, hpayload⟩ := h.flow g rec hrec _ hpay
  exact h.bound g t ht id name decl hpayload

/-- What is told on a ring about a name is about a name of the table. -/
theorem Naming.about (h : Naming S redefs D T w c) {t : Told} (ht : t ∈ w.told g)
    (habout : t.payload.about = some id) :
  ∃ name, t.caller = some name ∧ (name, id) ∈ T
  := by
  obtain ⟨t', ht', name, id', hbinds, habout', hcaller⟩ :=
    (h.preceded g).exists_of_mem ht (by rw [Told.needs, habout]; simp)
  rw [habout, Option.some.injEq] at habout'
  subst habout'
  refine ⟨name, hcaller, ?_⟩
  rcases t' with ⟨caller, payload⟩
  cases payload with
  | nameIntern id' name' decl =>
      obtain ⟨rfl, rfl⟩ := Prod.mk.inj (Option.some.inj hbinds)
      exact (h.bound g _ ht' _ _ decl rfl).1
  | _ => cases hbinds

/-- Behind a drain the host has all names in its table. -/
theorem Naming.drainAll (h : Naming S redefs D T w c) {ch : Channel}
    (hch : ch.interns = ((c.events .A ++ c.events .W).foldl Channel.foldRec
      w.events.host.ch).interns) (hmem : (name, id) ∈ T) :
  Listed ch.interns id (D id)
  := by
  rw [hch]
  rcases h.known name id hmem with hknown | ⟨rec, hrec, decl, hpay⟩
  · exact hknown.le (namesLe_foldl _ _)
  · obtain ⟨e, he, hmark⟩ := knows_foldl (List.mem_append_right _ hrec) hpay w.events.host.ch
    refine ⟨e, he, ?_⟩
    intro hdecl
    obtain ⟨t, ht, hpayload⟩ := h.flow .W rec hrec _ hpay
    exact hmark (h.declared t ht id name decl hpayload hdecl)

theorem stable_naming (S : Setting π τ) (redefs : Nat) (D : UInt32 → Prop)
    (T : List (Bytes × UInt32)) :
  Stable S (Naming S redefs D T)
  := by
  constructor
  · exact fun h => h.holds
  · intro w c c' m vnanos agentVnanos pauses bells h hholds hevents hbells
    refine ⟨hholds, fun b hb => h.bells b (hbells.subset hb), h.once, h.preceded, h.announced,
      h.bound, h.declared, h.marked, ?_, h.consistent, ?_, h.redefinitions, h.drained⟩
    · rw [hevents]
      exact h.flow
    · rw [hevents]
      exact h.known
  · intro w c h' h hholds hfold
    have hinterns : h'.ch.interns
        = ((c.events .A ++ c.events .W).foldl Channel.foldRec w.events.host.ch).interns := by
      rw [hfold]
      rfl
    have htruthful : ∀ rec ∈ c.events .A ++ c.events .W, Truthful T D rec := by
      intro rec hrec
      rcases List.mem_append.mp hrec with hrec | hrec
      · exact h.truthful .A rec hrec
      · exact h.truthful .W rec hrec
    obtain ⟨hconsistent, hredefs⟩ := consistent_foldl h.once h.consistent htruthful
    rw [← hinterns] at hconsistent
    refine ⟨hholds, h.bells, h.once, h.preceded, h.announced, h.bound, h.declared, h.marked, ?_,
      hconsistent, ?_, ?_, ?_⟩
    · intro g rec hrec
      cases hrec
    · intro name id hmem
      exact Or.inl (h.drainAll hinterns hmem)
    · dsimp only [World.drainedBy]
      rw [hfold]
      exact hredefs.trans h.redefinitions
    · intro d hd
      rcases List.mem_append.mp hd with hd | hd
      · exact h.drained d hd
      · -- the drain has taken the announcements along with what they precede
        obtain rfl := List.mem_singleton.mp hd
        refine ⟨_, rfl, ?_⟩
        intro ev hev id habout
        rw [Contents.drainedEvents] at hev
        have hrecord : ∃ g, ∃ rec ∈ c.events g, payloadOf rec = some ev.payload := by
          rcases List.mem_append.mp hev with hev | hev
          · obtain ⟨rec, hrec, heq⟩ := List.mem_filterMap.mp hev
            refine ⟨.A, rec, hrec, ?_⟩
            rw [payloadOf_eq .A, heq]
            rfl
          · obtain ⟨rec, hrec, heq⟩ := List.mem_filterMap.mp hev
            refine ⟨.W, rec, hrec, ?_⟩
            rw [payloadOf_eq .W, heq]
            rfl
        obtain ⟨g, rec, hrec, hpay⟩ := hrecord
        obtain ⟨t, ht, hpayload⟩ := h.flow g rec hrec _ hpay
        rw [← hpayload] at habout
        obtain ⟨name, _, hmem⟩ := h.about ht habout
        refine ⟨name, hmem, ?_⟩
        obtain ⟨e, he, _⟩ := h.drainAll hinterns hmem
        obtain ⟨name', hmem', hname', _⟩ := hconsistent id e he
        rw [Channel.internName, he, Option.map_some, hname', h.once _ _ _ hmem' hmem]

/-- The names and the marks may grow to `T'` and `D'` with a publication, as long as the event fits
them. -/
theorem Naming.publish {T' : List (Bytes × UInt32)} (h : Naming S redefs D T w c)
    (hev : ev.Encodable)
    (hnew : new = eventRecs (ringOf S.ch g.id) (w.events.mem.u32 (ringOf S.ch g.id).prod)
      (w.events.nextSeq g) vnanos flags ev)
    (hholds : Holds S.ch (w.events.setProducer g p) (c.push g new))
    (hneeds : ∀ id, ev.about = some id →
      ∃ name, w.caller = some name ∧ (name, id) ∈ w.announced g)
    (honce : OneName T') (hT : ∀ b ∈ T, b ∈ T') (hD : ∀ id, D id → D' id)
    (hD' : ∀ name id, (name, id) ∈ T → D' id → D id) (hmarked : ∀ id, D' id → ∃ name, (name, id) ∈ T')
    (hannounced : (w.publish g p new).announced .W = T')
    (hbinds : ∀ id name decl,
      toOwned (eventFlags flags ev) ev.clip = some (.nameIntern id name decl) →
        (name, id) ∈ T' ∧ (decl = true → D' id) ∧ (g = .W → D' id → decl = true))
    (hcover : ∀ b ∈ T', b ∈ T ∨ ∃ decl, g = .W ∧
      toOwned (eventFlags flags ev) ev.clip = some (.nameIntern b.2 b.1 decl)) :
  Naming S redefs D' T' (w.publish g p new) (c.push g new)
  := by
  have hpayloads := payloads_eventRecs h.holds hev hnew
  have htold : ∀ g', (w.publish g p new).told g' = w.told g' ++ if g = g' then
      (toOwned (eventFlags flags ev) ev.clip).toList.map fun payload => ⟨w.caller, payload⟩ else [] := by
    intro g'
    rw [told_publish, hpayloads]
  have hmem : ∀ g' t, t ∈ (w.publish g p new).told g' → t ∈ w.told g' ∨
      g = g' ∧ t.caller = w.caller ∧ toOwned (eventFlags flags ev) ev.clip = some t.payload := by
    intro g' t ht
    rw [htold, List.mem_append] at ht
    rcases ht with ht | ht
    · exact Or.inl ht
    · by_cases hg : g = g'
      · rw [if_pos hg] at ht
        obtain ⟨payload, hpayload, rfl⟩ := List.mem_map.mp ht
        exact Or.inr ⟨hg, rfl, Option.mem_toList.mp hpayload⟩
      · rw [if_neg hg] at ht
        cases ht
  have hmono : ∀ g' t, t ∈ w.told g' → t ∈ (w.publish g p new).told g' := by
    intro g' t ht
    rw [htold]
    exact List.mem_append_left _ ht
  refine ⟨hholds, h.bells, honce, ?_, hannounced, ?_, ?_, hmarked, ?_, h.consistent.mono hT hD, ?_,
    h.redefinitions, ?_⟩
  · intro g'
    rw [htold]
    by_cases hg : g = g'
    · subst hg
      rw [if_pos rfl]
      cases howned : toOwned (eventFlags flags ev) ev.clip with
      | none => simpa using h.preceded g
      | some payload =>
          apply (h.preceded g).concat
          intro _
          have habout := (toOwned_names howned).1
          cases hid : ev.about with
          | none =>
              rename_i hneed
              rw [Told.needs, habout, hid] at hneed
              exact absurd rfl hneed
          | some id =>
              obtain ⟨name, hcaller, hannounced⟩ := hneeds id hid
              obtain ⟨t, ht, hbinds⟩ := List.mem_filterMap.mp hannounced
              exact ⟨t, ht, name, id, hbinds, habout.trans hid, hcaller⟩
    · rw [if_neg hg, List.append_nil]
      exact h.preceded g'
  · intro g' t ht id name decl hpayload
    rcases hmem g' t ht with ht | ⟨_, _, howned⟩
    · obtain ⟨hin, hdecl⟩ := h.bound g' t ht id name decl hpayload
      exact ⟨hT _ hin, fun hd => hD id (hdecl hd)⟩
    · rw [hpayload] at howned
      obtain ⟨hin, hdecl, _⟩ := hbinds id name decl howned
      exact ⟨hin, hdecl⟩
  · intro t ht id name decl hpayload hdecl
    rcases hmem .W t ht with ht | ⟨hg, _, howned⟩
    · have hin := (h.bound .W t ht id name decl hpayload).1
      exact h.declared t ht id name decl hpayload (hD' name id hin hdecl)
    · rw [hpayload] at howned
      exact (hbinds id name decl howned).2.2 hg hdecl
  · intro g' rec hrec payload hpay
    have hold : rec ∈ c.events g' → ∃ t ∈ (w.publish g p new).told g', t.payload = payload := by
      intro hrec
      obtain ⟨t, ht, hpayload⟩ := h.flow g' rec hrec payload hpay
      exact ⟨t, hmono g' t ht, hpayload⟩
    by_cases hg : g' = g
    · subst hg
      rw [Contents.push_self, List.mem_append] at hrec
      rcases hrec with hrec | hrec
      · exact hold hrec
      · have hin : payload ∈ new.filterMap payloadOf := List.mem_filterMap.mpr ⟨rec, hrec, hpay⟩
        rw [hpayloads] at hin
        refine ⟨⟨w.caller, payload⟩, ?_, rfl⟩
        rw [htold, if_pos rfl]
        exact List.mem_append_right _ (List.mem_map_of_mem hin)
    · rw [Contents.push_of_ne _ hg] at hrec
      exact hold hrec
  · intro name id hin
    rcases hcover (name, id) hin with hin | ⟨decl, rfl, howned⟩
    · rcases h.known name id hin with ⟨e, he, hmark⟩ | ⟨rec, hrec, decl, hpay⟩
      · exact Or.inl ⟨e, he, fun hd => hmark (hD' name id hin hd)⟩
      · refine Or.inr ⟨rec, ?_, decl, hpay⟩
        by_cases hg : GuestRing.W = g
        · subst hg
          rw [Contents.push_self]
          exact List.mem_append_left _ hrec
        · rw [Contents.push_of_ne _ hg]
          exact hrec
    · right
      have hpay : OwnedPayload.nameIntern id name decl ∈ new.filterMap payloadOf := by
        rw [hpayloads, howned]
        exact List.mem_singleton.mpr rfl
      obtain ⟨rec, hrec, heq⟩ := List.mem_filterMap.mp hpay
      refine ⟨rec, ?_, decl, heq⟩
      rw [Contents.push_self]
      exact List.mem_append_right _ hrec
  · intro d hd
    obtain ⟨evs, hevs, hall⟩ := h.drained d hd
    refine ⟨evs, hevs, ?_⟩
    intro ev' hev' id habout
    obtain ⟨name, hin, hresolves⟩ := hall ev' hev' id habout
    exact ⟨name, hT _ hin, hresolves⟩

/-- The names that are announced behind a publication. -/
theorem announced_publish (h : Naming S redefs D T w c) (hev : ev.Encodable)
    (hnew : new = eventRecs (ringOf S.ch g.id) (w.events.mem.u32 (ringOf S.ch g.id).prod)
      (w.events.nextSeq g) vnanos flags ev) (g' : GuestRing) :
  (w.publish g p new).announced g' = w.announced g' ++ if g = g' then
    (match ev with
      | .nameIntern nameId name => [(name, nameId)]
      | _ => []) else []
  := by
  rw [World.announced, told_publish, payloads_eventRecs h.holds hev hnew, List.filterMap_append,
    ← World.announced]
  congr 1
  by_cases hg : g = g'
  · rw [if_pos hg, if_pos hg]
    cases ev <;> rfl
  · rw [if_neg hg, if_neg hg]
    rfl

/-- An event that announces nothing. -/
theorem Naming.publish_plain (h : Naming S redefs D T w c) (hev : ev.Encodable)
    (hplain : ev.kind ≠ .nameIntern)
    (hnew : new = eventRecs (ringOf S.ch g.id) (w.events.mem.u32 (ringOf S.ch g.id).prod)
      (w.events.nextSeq g) vnanos flags ev)
    (hholds : Holds S.ch (w.events.setProducer g p) (c.push g new))
    (hneeds : ∀ id, ev.about = some id →
      ∃ name, w.caller = some name ∧ (name, id) ∈ w.announced g) :
  Naming S redefs D T (w.publish g p new) (c.push g new)
  := by
  have hnone : ∀ id name decl,
      toOwned (eventFlags flags ev) ev.clip ≠ some (.nameIntern id name decl) := by
    intro id name decl howned
    cases ev <;> cases howned
    exact hplain rfl
  apply h.publish hev hnew hholds hneeds h.once (fun _ h => h) (fun _ h => h) (fun _ _ _ h => h)
    h.marked
  · rw [announced_publish h hev hnew, h.announced]
    cases ev <;> first | exact absurd rfl hplain | simp
  · intro id name decl howned
    exact absurd howned (hnone id name decl)
  · exact fun b hb => Or.inl hb

/-- An announcement is never clipped. -/
theorem eventFlags_nameIntern (flags : UInt8) (id : UInt32) (name : Bytes) :
  eventFlags flags (.nameIntern id name) = flags
  := UInt8.or_zero

/-- The agent announces a name again on ring A. -/
theorem Naming.publish_again (h : Naming S redefs D T w c) (hmem : (name, id) ∈ T)
    (hev : (EventPayload.nameIntern id name).Encodable)
    (hnew : new = eventRecs (ringOf S.ch .A) (w.events.mem.u32 (ringOf S.ch .A).prod)
      (w.events.nextSeq .A) vnanos 0 (.nameIntern id name))
    (hholds : Holds S.ch (w.events.setProducer .A p) (c.push .A new)) :
  Naming S redefs D T (w.publish .A p new) (c.push .A new)
  := by
  apply h.publish (g := .A) hev hnew hholds (by simp [EventPayload.about]) h.once (fun _ h => h)
    (fun _ h => h) (fun _ _ _ h => h) h.marked
  · rw [announced_publish (g := .A) h hev hnew, if_neg (by decide), List.append_nil, h.announced]
  · intro id' name' decl howned
    obtain ⟨rfl, rfl, hdecl⟩ := OwnedPayload.nameIntern.inj (Option.some.inj howned)
    refine ⟨hmem, ?_, by simp⟩
    intro hd
    rw [← hdecl, eventFlags_nameIntern] at hd
    exact absurd hd (by decide)
  · exact fun b hb => Or.inl hb

/-- The SDK announces a new name on ring W. -/
theorem Naming.publish_new (h : Naming S redefs D T w c) (hfresh : ∀ name', (name', id) ∉ T)
    (hD : ∀ id', D' id' ↔ D id' ∨ id' = id ∧ flags &&& flagReachableDecl ≠ 0)
    (hev : (EventPayload.nameIntern id name).Encodable)
    (hnew : new = eventRecs (ringOf S.ch .W) (w.events.mem.u32 (ringOf S.ch .W).prod)
      (w.events.nextSeq .W) vnanos flags (.nameIntern id name))
    (hholds : Holds S.ch (w.events.setProducer .W p) (c.push .W new)) :
  Naming S redefs D' (T ++ [(name, id)]) (w.publish .W p new) (c.push .W new)
  := by
  have hin : (name, id) ∈ T ++ [(name, id)] := List.mem_append_right _ (List.mem_singleton.mpr rfl)
  apply h.publish (g := .W) hev hnew hholds (by simp [EventPayload.about])
  · intro name₁ name₂ id' h₁ h₂
    rcases List.mem_append.mp h₁ with hold₁ | hlast₁ <;>
      rcases List.mem_append.mp h₂ with hold₂ | hlast₂
    · exact h.once _ _ _ hold₁ hold₂
    · obtain ⟨_, rfl⟩ := Prod.mk.inj (List.mem_singleton.mp hlast₂)
      exact absurd hold₁ (hfresh _)
    · obtain ⟨_, rfl⟩ := Prod.mk.inj (List.mem_singleton.mp hlast₁)
      exact absurd hold₂ (hfresh _)
    · obtain ⟨rfl, _⟩ := Prod.mk.inj (List.mem_singleton.mp hlast₁)
      exact (Prod.mk.inj (List.mem_singleton.mp hlast₂)).1.symm
  · exact fun b hb => List.mem_append_left _ hb
  · exact fun id' hd => (hD id').mpr (Or.inl hd)
  · intro name' id' hmem hd
    rcases (hD id').mp hd with hd | ⟨rfl, _⟩
    · exact hd
    · exact absurd hmem (hfresh name')
  · intro id' hd
    rcases (hD id').mp hd with hd | ⟨rfl, _⟩
    · obtain ⟨name', hmem⟩ := h.marked id' hd
      exact ⟨name', List.mem_append_left _ hmem⟩
    · exact ⟨name, hin⟩
  · rw [announced_publish (g := .W) h hev hnew, if_pos rfl, h.announced]
  · intro id' name' decl howned
    obtain ⟨rfl, rfl, hdecl⟩ := OwnedPayload.nameIntern.inj (Option.some.inj howned)
    refine ⟨hin, ?_, ?_⟩
    · intro hd
      rw [← hdecl, eventFlags_nameIntern] at hd
      exact (hD id).mpr (Or.inr ⟨rfl, bne_iff_ne.mp hd⟩)
    · intro _ hd
      rcases (hD id).mp hd with hd | ⟨_, hflag⟩
      · obtain ⟨name', hmem⟩ := h.marked id hd
        exact absurd hmem (hfresh name')
      · rw [← hdecl, eventFlags_nameIntern]
        exact bne_iff_ne.mpr hflag
  · intro b hb
    rcases List.mem_append.mp hb with hb | hb
    · exact Or.inl hb
    · obtain rfl := List.mem_singleton.mp hb
      exact Or.inr ⟨_, rfl, rfl⟩

end Naming

end Protocol
