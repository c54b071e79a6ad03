import Mathlib.Data.List.Forall2
import DetGuest.Host.Inject

/-!
# Plans from rule tables

A table plan decides a query by the first of its rules whose glob matches the name and whose
occurrence is the one its counter has reached.  The counter of a rule advances when the loop
gets to the rule, so a rule that wins hides the query from the counters behind it.
-/

namespace Host

open Wire

/-! ### Globs -/

/-- The byte `*`. -/
def star : UInt8 := 0x2A

/-- Whether a text matches a glob, in which `*` stands for any bytes. -/
def globMatch : Bytes → Bytes → Bool
  | [], t => t.isEmpty
  | c :: rest, t =>
      if c = star then
        (List.range (t.length + 1)).any fun k => globMatch rest (t.drop k)
      else
        match t with
        | [] => false
        | tc :: tr => tc == c && globMatch rest tr

/-! ### The texts of a glob -/

/-- What a byte of a glob stands for: `*` for any bytes, every other byte for itself. -/
def StandsFor (c : UInt8) (piece : Bytes) : Prop :=
  c = star ∨ piece = [c]

/-- The text is the glob with every byte replaced by something that it stands for. -/
def Expands (p t : Bytes) : Prop :=
  ∃ pieces : List Bytes, List.Forall₂ StandsFor p pieces ∧ t = pieces.flatten

theorem expands_nil {t : Bytes} :
  Expands [] t ↔ t = []
  := by
  constructor
  · rintro ⟨pieces, hpieces, rfl⟩
    cases hpieces
    rfl
  · rintro rfl
    exact ⟨[], .nil, rfl⟩

/-- A `*` stands for some front of the text. -/
theorem expands_star {rest t : Bytes} :
  Expands (star :: rest) t ↔ ∃ k, k ≤ t.length ∧ Expands rest (t.drop k)
  := by
  constructor
  · rintro ⟨_, hpieces, rfl⟩
    obtain ⟨piece, pieces, _, htail, rfl⟩ := List.forall₂_cons_left_iff.mp hpieces
    refine ⟨piece.length, ?_, pieces, htail, ?_⟩
    · rw [List.flatten_cons, List.length_append]
      apply Nat.le_add_right
    · rw [List.flatten_cons, List.drop_left]
  · rintro ⟨k, _, pieces, hpieces, ht⟩
    refine ⟨t.take k :: pieces, .cons (.inl rfl) hpieces, ?_⟩
    rw [List.flatten_cons, ← ht, List.take_append_drop]

/-- Every other byte stands in front of the text. -/
theorem expands_cons {c : UInt8} (hc : c ≠ star) {rest t : Bytes} :
  Expands (c :: rest) t ↔ ∃ tr, t = c :: tr ∧ Expands rest tr
  := by
  constructor
  · rintro ⟨_, hpieces, rfl⟩
    obtain ⟨_, pieces, hhead, htail, rfl⟩ := List.forall₂_cons_left_iff.mp hpieces
    obtain rfl := hhead.resolve_left hc
    exact ⟨pieces.flatten, rfl, pieces, htail, rfl⟩
  · rintro ⟨_, rfl, pieces, hpieces, rfl⟩
    exact ⟨[c] :: pieces, .cons (.inr rfl) hpieces, rfl⟩

/-- A text matches a glob exactly when it is the glob with each `*` replaced by some bytes. -/
theorem globMatch_iff_expands (p t : Bytes) :
  globMatch p t = true ↔ Expands p t
  := by
  induction p generalizing t with
  | nil => rw [globMatch, List.isEmpty_iff, expands_nil]
  | cons c rest ih =>
      rw [globMatch.eq_def]
      dsimp only
      by_cases hc : c = star
      · subst hc
        rw [if_pos rfl, List.any_eq_true, expands_star]
        apply exists_congr
        intro k
        rw [List.mem_range, Nat.lt_succ_iff, ih]
      · rw [if_neg hc, expands_cons hc]
        cases t with
        | nil => simp
        | cons tc tr =>
            rw [Bool.and_eq_true, beq_iff_eq, ih]
            constructor
            · rintro ⟨rfl, hrest⟩
              exact ⟨tr, rfl, hrest⟩
            · rintro ⟨_, heq, hrest⟩
              obtain ⟨rfl, rfl⟩ := List.cons.inj heq
              exact ⟨rfl, hrest⟩

/-! ### Rule tables -/

/-- A rule of a table plan. -/
structure FaultRule where
  nameGlob : Bytes
  occurrence : Option UInt32
  decision : FaultDecision
  deriving DecidableEq, Repr

/-- Whether a rule's glob matches the name of a query.  A name that is not known matches only
the glob `*`. -/
def FaultRule.matchesName (rule : FaultRule) (name : Option Bytes) : Bool :=
  match name with
  | some n => globMatch rule.nameGlob n
  | none => rule.nameGlob == [star]

/-- Whether a rule that matches decides the query, when its counter is `occ`. -/
def FaultRule.wins (rule : FaultRule) (occ : UInt32) : Bool :=
  rule.occurrence.isNone || rule.occurrence == some occ

/-- A plan from a rule table, with a counter for each rule and the decisions made. -/
structure TableFaultPlan where
  rules : List FaultRule
  hits : List UInt32
  decisions : List (UInt32 × FaultDecision)
  deriving DecidableEq, Repr

/-- The plan of a table. -/
def TableFaultPlan.new (rules : List FaultRule) : TableFaultPlan :=
  { rules, hits := List.replicate rules.length 0, decisions := [] }

/-- The end of the range of a counter. -/
def hitsMax : UInt32 := 0xFFFFFFFF

/-- `hits += 1`, which panics at the end of the range when overflow is checked, and wraps when
it is not. -/
def countHit (dbg : Bool) (occ : UInt32) : Res Empty UInt32 :=
  if dbg = true ∧ occ = hitsMax then .panic else .ok (occ + 1)

/-- The loop over the rules: the counters behind it, and the decision. -/
def decideRules (dbg : Bool) (name : Option Bytes) :
    List FaultRule → List UInt32 → Res Empty (List UInt32 × FaultDecision)
  | [], hits => .ok (hits, .proceed)
  | _ :: _, [] => .panic
  | rule :: rules, occ :: hits =>
      if rule.matchesName name then do
        let next ← countHit dbg occ
        if rule.wins occ then
          pure (next :: hits, rule.decision)
        else
          let (hits, out) ← decideRules dbg name rules hits
          pure (next :: hits, out)
      else do
        let (hits, out) ← decideRules dbg name rules hits
        pure (occ :: hits, out)

/-- Decide a query. -/
def TableFaultPlan.decide (dbg : Bool) (p : TableFaultPlan) (q : Query) :
    Res Empty (TableFaultPlan × FaultDecision) := do
  let (hits, out) ← decideRules dbg q.name p.rules p.hits
  pure ({ p with hits, decisions := p.decisions ++ [(q.iseq, out)] }, out)

/-- Decide a sequence of queries. -/
def TableFaultPlan.decideAll (dbg : Bool) (p : TableFaultPlan) :
    List Query → Res Empty (TableFaultPlan × List FaultDecision)
  | [] => .ok (p, [])
  | q :: qs => do
      let (p, out) ← p.decide dbg q
      let (p, outs) ← decideAll dbg p qs
      pure (p, out :: outs)

/-! ### Occurrences -/

/-- The number of queries that match a rule. -/
def FaultRule.matched (rule : FaultRule) (qs : List Query) : Nat :=
  qs.countP fun q => rule.matchesName q.name

/-- Whether a rule is to decide a query, behind the queries `before`: its glob matches, and
either it has no occurrence or the query is that occurrence of its glob. -/
def FaultRule.eligible (before : List Query) (q : Query) (rule : FaultRule) : Bool :=
  rule.matchesName q.name &&
    match rule.occurrence with
    | none => true
    | some n => rule.matched before == n.toNat

/-- The decision of the first rule that is to decide a query. -/
def firstEligible (rules : List FaultRule) (before : List Query) (q : Query) : FaultDecision :=
  match rules.find? (FaultRule.eligible before q) with
  | none => .proceed
  | some rule => rule.decision

/-- The loop hides no occurrence from a rule that still waits for its own: behind the rule that
wins, every rule with an occurrence that matches the name has passed it.  And no counter that
advances is at the end of its range, where it would panic or, in front of an occurrence,
start over. -/
def HidesNothing (dbg : Bool) (name : Option Bytes) : List FaultRule → List UInt32 → Prop
  | rule :: rules, occ :: hits =>
      if rule.matchesName name then
        (dbg = true ∨ rule.occurrence.isSome → occ ≠ hitsMax) ∧
          if rule.wins occ then
            List.Forall₂ (fun (r : FaultRule) (o : UInt32) =>
              r.matchesName name → ∀ n, r.occurrence = some n → n < o) rules hits
          else HidesNothing dbg name rules hits
      else HidesNothing dbg name rules hits
  | _, _ => True

/-- No query of a sequence hides an occurrence. -/
def TableFaultPlan.HidesNothing (dbg : Bool) (p : TableFaultPlan) : List Query → Prop
  | [] => True
  | q :: qs =>
      Host.HidesNothing dbg q.name p.rules p.hits ∧
        ∀ p' out, p.decide dbg q = .ok (p', out) → p'.HidesNothing dbg qs

/-- A counter that has a rule's occurrence right: it is the number of the queries that match,
or both have passed the occurrence. -/
def Counted (before : List Query) (rule : FaultRule) (occ : UInt32) : Prop :=
  ∀ n, rule.occurrence = some n →
    occ.toNat = rule.matched before ∨ n < occ ∧ n.toNat < rule.matched before

theorem countHit_of_ne {dbg : Bool} {occ : UInt32} (h : dbg = true → occ ≠ hitsMax) :
  countHit dbg occ = (.ok (occ + 1) : Res Empty UInt32)
  := by
  rw [countHit, if_neg]
  rintro ⟨hdbg, hmax⟩
  apply h hdbg hmax

theorem toNat_succ_of_ne {occ : UInt32} (h : occ ≠ hitsMax) :
  (occ + 1).toNat = occ.toNat + 1
  := by
  have hlt := UInt32.toNat_lt occ
  have hne : occ.toNat ≠ 2 ^ 32 - 1 := by
    intro heq
    apply h
    apply UInt32.toNat_inj.mp
    rw [heq]
    rfl
  rw [UInt32.toNat_add, UInt32.toNat_one, Nat.mod_eq_of_lt]
  omega

theorem matched_concat (rule : FaultRule) (before : List Query) (q : Query) :
  rule.matched (before ++ [q])
    = rule.matched before + if rule.matchesName q.name then 1 else 0
  := by
  simp [FaultRule.matched, List.countP_append, List.countP_singleton]

/-- A right counter knows when its rule is to decide a query that matches. -/
theorem Counted.wins {before : List Query} {rule : FaultRule} {occ : UInt32}
    (h : Counted before rule occ) {q : Query} (hmatch : rule.matchesName q.name = true) :
  rule.eligible before q = rule.wins occ
  := by
  rw [FaultRule.eligible, hmatch, Bool.true_and, FaultRule.wins]
  cases hocc : rule.occurrence with
  | none => rfl
  | some n =>
      rw [Option.isNone_some, Bool.false_or, Bool.eq_iff_iff, beq_iff_eq, beq_iff_eq,
        Option.some.injEq, ← UInt32.toNat_inj]
      rcases h n hocc with heq | ⟨hlt, hpast⟩
      · rw [heq, eq_comm]
      · rw [UInt32.lt_iff_toNat_lt] at hlt
        constructor
        · intro heq
          omega
        · intro heq
          omega

/-- A counter stays right over a query that it does not match. -/
theorem Counted.skip {before : List Query} {rule : FaultRule} {occ : UInt32}
    (h : Counted before rule occ) {q : Query} (hmatch : rule.matchesName q.name = false) :
  Counted (before ++ [q]) rule occ
  := by
  intro n hn
  rw [matched_concat, hmatch]
  exact h n hn

/-- A counter stays right over a query that matches and that it counts. -/
theorem Counted.hit {before : List Query} {rule : FaultRule} {occ : UInt32}
    (h : Counted before rule occ) {q : Query} (hmatch : rule.matchesName q.name = true)
    (hroom : rule.occurrence.isSome → occ ≠ hitsMax) :
  Counted (before ++ [q]) rule (occ + 1)
  := by
  intro n hn
  have hsucc := toNat_succ_of_ne (hroom (by rw [hn]; rfl))
  rw [matched_concat, hmatch, if_pos rfl, hsucc, UInt32.lt_iff_toNat_lt, hsucc]
  rcases h n hn with heq | ⟨hlt, hpast⟩
  · left
    rw [heq]
  · right
    rw [UInt32.lt_iff_toNat_lt] at hlt
    omega

/-- A counter stays right over a query that is hidden from it once its rule's occurrence has
passed. -/
theorem Counted.hidden {before : List Query} {rule : FaultRule} {occ : UInt32}
    (h : Counted before rule occ) {q : Query}
    (hpast : rule.matchesName q.name → ∀ n, rule.occurrence = some n → n < occ) :
  Counted (before ++ [q]) rule occ
  := by
  cases hmatch : rule.matchesName q.name with
  | false => exact h.skip hmatch
  | true =>
      intro n hn
      have hlt := hpast hmatch n hn
      right
      rw [matched_concat]
      rw [UInt32.lt_iff_toNat_lt] at hlt
      rcases h n hn with heq | ⟨_, hmatched⟩
      · exact ⟨UInt32.lt_iff_toNat_lt.mpr hlt, by omega⟩
      · exact ⟨UInt32.lt_iff_toNat_lt.mpr hlt, by omega⟩

theorem firstEligible_cons_of_pos {rule : FaultRule} {before : List Query} {q : Query}
    (h : rule.eligible before q = true) (rules : List FaultRule) :
  firstEligible (rule :: rules) before q = rule.decision
  := by
  rw [firstEligible, List.find?_cons_of_pos h]

theorem firstEligible_cons_of_neg {rule : FaultRule} {before : List Query} {q : Query}
    (h : rule.eligible before q = false) (rules : List FaultRule) :
  firstEligible (rule :: rules) before q = firstEligible rules before q
  := by
  rw [firstEligible, List.find?_cons_of_neg (by rw [h]; exact Bool.false_ne_true)]
  rfl

/-- The loop over rules with right counters decides by the first rule that is to decide the
query, and leaves right counters. -/
theorem decideRules_eq {dbg : Bool} {before : List Query} {q : Query}
    {rules : List FaultRule} {hits : List UInt32}
    (hcounted : List.Forall₂ (Counted before) rules hits)
    (hclear : HidesNothing dbg q.name rules hits) :
  ∃ hits', decideRules dbg q.name rules hits
      = (.ok (hits', firstEligible rules before q) : Res Empty (List UInt32 × FaultDecision)) ∧
    List.Forall₂ (Counted (before ++ [q])) rules hits'
  := by
  induction hcounted with
  | nil => exact ⟨[], rfl, .nil⟩
  | @cons rule occ rules hits hrule hrules ih =>
      rw [HidesNothing] at hclear
      rw [decideRules]
      cases hmatch : rule.matchesName q.name with
      | false =>
          rw [hmatch, if_neg Bool.false_ne_true] at hclear
          obtain ⟨hits', hrun, hcounted'⟩ := ih hclear
          have hskip : rule.eligible before q = false := by
            rw [FaultRule.eligible, hmatch, Bool.false_and]
          refine ⟨occ :: hits', ?_, .cons (hrule.skip hmatch) hcounted'⟩
          rw [if_neg Bool.false_ne_true, hrun, firstEligible_cons_of_neg hskip]
          rfl
      | true =>
          rw [hmatch, if_pos rfl] at hclear
          obtain ⟨hroom, hrest⟩ := hclear
          have hcount : countHit dbg occ = (.ok (occ + 1) : Res Empty UInt32) :=
            countHit_of_ne fun hdbg => hroom (.inl hdbg)
          have hhit : Counted (before ++ [q]) rule (occ + 1) :=
            hrule.hit hmatch fun hsome => hroom (.inr hsome)
          have helig := hrule.wins hmatch
          rw [if_pos rfl, hcount, Res.ok_bind]
          cases hwins : rule.wins occ with
          | true =>
              rw [hwins, if_pos rfl] at hrest
              rw [hwins] at helig
              refine ⟨(occ + 1) :: hits, ?_, .cons hhit ?_⟩
              · rw [if_pos rfl, firstEligible_cons_of_pos helig]
                rfl
              · clear ih hmatch hroom hcount hhit helig hwins
                induction hrules with
                | nil => exact .nil
                | cons hr _ ih =>
                    cases hrest with
                    | cons hpast hrest => exact .cons (hr.hidden hpast) (ih hrest)
          | false =>
              rw [hwins, if_neg Bool.false_ne_true] at hrest
              rw [hwins] at helig
              obtain ⟨hits', hrun, hcounted'⟩ := ih hrest
              refine ⟨(occ + 1) :: hits', ?_, .cons hhit hcounted'⟩
              rw [if_neg Bool.false_ne_true, hrun, firstEligible_cons_of_neg helig]
              rfl

/-- A query that hides no occurrence is decided by the first rule that is to decide it. -/
theorem decide_eq {dbg : Bool} {p : TableFaultPlan} {before : List Query} {q : Query}
    (hcounted : List.Forall₂ (Counted before) p.rules p.hits)
    (hclear : HidesNothing dbg q.name p.rules p.hits) :
  ∃ p', p.decide dbg q
      = (.ok (p', firstEligible p.rules before q) : Res Empty (TableFaultPlan × FaultDecision)) ∧
    p'.rules = p.rules ∧ List.Forall₂ (Counted (before ++ [q])) p'.rules p'.hits ∧
    p'.decisions = p.decisions ++ [(q.iseq, firstEligible p.rules before q)]
  := by
  obtain ⟨hits', hrun, hcounted'⟩ := decideRules_eq hcounted hclear
  refine ⟨{ p with hits := hits', decisions := _ }, ?_, rfl, hcounted', rfl⟩
  rw [TableFaultPlan.decide, hrun]
  rfl

/-- The decisions about a sequence of queries by the first rule that is to decide each. -/
def eligibleDecisions (rules : List FaultRule) (before : List Query) :
    List Query → List FaultDecision
  | [] => []
  | q :: qs => firstEligible rules before q :: eligibleDecisions rules (before ++ [q]) qs

theorem length_eligibleDecisions (rules : List FaultRule) (before qs : List Query) :
  (eligibleDecisions rules before qs).length = qs.length
  := by
  induction qs generalizing before with
  | nil => rfl
  | cons q qs ih => rw [eligibleDecisions, List.length_cons, List.length_cons, ih]

/-- The decision about a query of the sequence, from the queries before it. -/
theorem getElem?_eligibleDecisions (rules : List FaultRule) (before pre post : List Query)
    (q : Query) :
  (eligibleDecisions rules before (pre ++ q :: post))[pre.length]?
    = some (firstEligible rules (before ++ pre) q)
  := by
  induction pre generalizing before with
  | nil =>
      rw [List.append_nil]
      rfl
  | cons p pre ih =>
      rw [List.cons_append, eligibleDecisions, List.length_cons, List.getElem?_cons_succ, ih,
        List.append_assoc]
      rfl

theorem decideAll_eq {dbg : Bool} {p : TableFaultPlan} {before qs : List Query}
    (hcounted : List.Forall₂ (Counted before) p.rules p.hits) (hclear : p.HidesNothing dbg qs) :
  ∃ p', p.decideAll dbg qs
      = (.ok (p', eligibleDecisions p.rules before qs) :
          Res Empty (TableFaultPlan × List FaultDecision)) ∧
    p'.decisions
      = p.decisions ++ (qs.map Query.iseq).zip (eligibleDecisions p.rules before qs)
  := by
  induction qs generalizing p before with
  | nil =>
      refine ⟨p, rfl, ?_⟩
      rw [List.map_nil, List.zip_nil_left, List.append_nil]
  | cons q qs ih =>
      obtain ⟨hq, hqs⟩ := hclear
      obtain ⟨p₁, hrun, hrules, hcounted₁, hlog⟩ := decide_eq hcounted hq
      obtain ⟨p₂, hrun₂, hlog₂⟩ := ih hcounted₁ (hqs p₁ _ hrun)
      refine ⟨p₂, ?_, ?_⟩
      · rw [TableFaultPlan.decideAll, hrun, Res.ok_bind]
        dsimp only
        rw [hrun₂, hrules]
        rfl
      · rw [hlog₂, hlog, hrules, eligibleDecisions, List.map_cons, List.zip_cons_cons,
          List.append_assoc]
        rfl

/-! ### Whole tables -/

theorem counted_new (rules : List FaultRule) :
  List.Forall₂ (Counted []) rules (List.replicate rules.length 0)
  := by
  induction rules with
  | nil => exact .nil
  | cons rule rules ih =>
      apply List.Forall₂.cons _ ih
      intro n _
      left
      rfl

/-- A sequence of queries that hides no occurrence is decided, query by query, by the first
rule whose glob matches and whose occurrence, if it has one, is the number of the queries
before that match the glob. -/
theorem decideAll_eligible (dbg : Bool) (rules : List FaultRule) (qs : List Query)
    (h : (TableFaultPlan.new rules).HidesNothing dbg qs) :
  ∃ p outs, (TableFaultPlan.new rules).decideAll dbg qs = .ok (p, outs) ∧
    outs.length = qs.length ∧
    (∀ before q behind, qs = before ++ q :: behind →
      outs[before.length]? = some (firstEligible rules before q)) ∧
    p.decisions = (qs.map Query.iseq).zip outs
  := by
  obtain ⟨p, hrun, hlog⟩ := decideAll_eq (counted_new rules) h
  refine ⟨p, _, hrun, length_eligibleDecisions rules [] qs, ?_, hlog⟩
  rintro before q behind rfl
  exact getElem?_eligibleDecisions rules [] before behind q

/-- A query of the name `a`, and one of the name `b`. -/
def queryA : Query := { iseq := 0, nameId := 1, name := some [0x61] }

def queryB : Query := { iseq := 1, nameId := 2, name := some [0x62] }

/-- A rule for `a`, in front of one for the second query whatever its name. -/
def hidingRules : List FaultRule :=
  [{ nameGlob := [0x61], occurrence := none, decision := .platform 1 5 },
    { nameGlob := [star], occurrence := some 1, decision := .platform 2 64 }]

/-- Queries of `b` alone hide nothing from the second rule. -/
theorem decideAll_eligible_queryB :
  ∃ p outs, (TableFaultPlan.new hidingRules).decideAll true [queryB, queryB] = .ok (p, outs) ∧
    outs.length = 2 ∧
    (∀ before q behind, [queryB, queryB] = before ++ q :: behind →
      outs[before.length]? = some (firstEligible hidingRules before q)) ∧
    p.decisions = [1, 1].zip outs
  := by
  apply decideAll_eligible true hidingRules [queryB, queryB]
  refine ⟨⟨fun _ => by decide, trivial⟩, ?_⟩
  rintro p' out hrun
  cases hrun
  refine ⟨⟨fun _ => by decide, .nil⟩, ?_⟩
  rintro p' out hrun
  cases hrun
  trivial

/-- The query of `a`, which the first rule decides, is not counted for the second rule, so the
second query is not its second occurrence. -/
theorem occurrence_hidden :
  ∃ p outs, (TableFaultPlan.new hidingRules).decideAll true [queryA, queryB] = .ok (p, outs) ∧
    outs[1]? = some .proceed ∧
    firstEligible hidingRules [queryA] queryB = .platform 2 64
  := ⟨_, _, rfl, rfl, by decide⟩

end Host
