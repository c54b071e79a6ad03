import DetGuest.Agent.Integers

/-!
# The lines of a document

What a line says, how it may be written, and that the parser does what each line says.
-/

namespace Agent

namespace Tiny

open Text

/-! ### Statements -/

/-- What a line says. -/
inductive Stmt where
  | blank
  | array (path : List Text) (last : Text)
  | table (path : List Text)
  | entry (key : Text) (v : Value)

/-- Do what a line says. -/
def Stmt.run (doc : Doc) : Stmt → Res Error Doc
  | .blank => .ok doc
  | .array path last => do
      let root ← navigate (pushTable last) path doc.root
      pure { root, curPath := path ++ [last] }
  | .table path => do
      let root ← navigate .ok path doc.root
      pure { root, curPath := path }
  | .entry key v => do
      let root ← navigate (insertKey key v) doc.curPath doc.root
      pure { doc with root }

/-- Do what lines say, one after the other. -/
def Stmt.runAll (doc : Doc) : List Stmt → Res Error Doc
  | [] => .ok doc
  | stmt :: stmts => do
      let doc ← stmt.run doc
      runAll doc stmts

/-! ### How they are written -/

/-- A string as it is written: each character behind a backslash, or as it is. -/
inductive Escaped : Text → Text → Prop where
  | nil : Escaped [] []
  | raw {c : Char} {s t : Text} : c ≠ '"' → c ≠ '\\' → Escaped s t → Escaped (c :: s) (c :: t)
  | escape {c e : Char} {s t : Text} : unescape e = some c → Escaped s t →
      Escaped (c :: s) ('\\' :: e :: t)

/-- A string between its quotes. -/
inductive Quoted : Text → Text → Prop where
  | mk {s t : Text} : Escaped s t → Quoted s ('"' :: (t ++ ['"']))

/-- Strings with commas between them, and perhaps one behind them. -/
inductive Items : List Text → Text → Prop where
  | nil : Items [] []
  | last {s q : Text} : Quoted s q → Items [s] q
  | comma {s q a : Text} : Quoted s q → Blanks a → Items [s] (q ++ (a ++ [',']))
  | cons {s q a b t : Text} {ss : List Text} : Quoted s q → Blanks a → Blanks b → ss ≠ [] →
      Items ss t → Items (s :: ss) (q ++ (a ++ ',' :: (b ++ t)))

/-- How a value is written: a string, a decimal or hexadecimal number, or an array of strings. -/
inductive Spells : Value → Text → Prop where
  | str {s q : Text} : Quoted s q → Spells (.str s) q
  | int {m : Nat} {d : Text} : Magnitude (withoutUnderscores d) m → Fits m → Spells (.int m) d
  | array {ss : List Text} {a t b : Text} : Blanks a → Items ss t → Blanks b →
      Spells (.array (ss.map .str)) ('[' :: (a ++ (t ++ b) ++ [']']))

/-- The segments of a path with dots between them. -/
inductive Dotted : List Text → Text → Prop where
  | last {seg : Text} : validKey seg = true → Dotted [seg] seg
  | cons {seg a b t : Text} {path : List Text} : validKey seg = true → Blanks a → Blanks b →
      Dotted path t → Dotted (seg :: path) (seg ++ (a ++ '.' :: (b ++ t)))

/-- How a statement is written. -/
inductive Written : Stmt → Text → Prop where
  | blank : Written .blank []
  | array {path : List Text} {last a t b : Text} : Blanks a → Dotted (path ++ [last]) t →
      Blanks b → Written (.array path last) ('[' :: '[' :: (a ++ (t ++ b) ++ [']', ']']))
  | table {path : List Text} {a t b : Text} : Blanks a → Dotted path t → Blanks b →
      Written (.table path) ('[' :: (a ++ (t ++ b) ++ [']']))
  | entry {key a b t : Text} {v : Value} : validKey key = true → Blanks a → Blanks b →
      Spells v t → Written (.entry key v) (key ++ (a ++ '=' :: (b ++ t)))

/-- A comment, or nothing. -/
def Comment (t : Text) : Prop := ∀ c ∈ t.head?, c = '#'

/-- A line that says what a statement says: with blanks around the statement, and perhaps a
comment behind it. -/
inductive Renders : Stmt → Text → Prop where
  | mk {stmt : Stmt} {p t q c : Text} : Blanks p → Written stmt t → Blanks q → Comment c →
      Renders stmt (p ++ (t ++ q) ++ c)

/-! ### Characters -/

/-- The characters of a key. -/
def isWord (c : Char) : Bool := isAsciiAlphanumeric c || c == '_' || c == '-'

/-- Characters of which neither begins a string or a comment. -/
def Plain (t : Text) : Prop := ∀ c ∈ t, c ≠ '"' ∧ c ≠ '#'

/-- Characters of a key. -/
def Word (t : Text) : Prop := ∀ c ∈ t, isWord c = true

theorem word_of_validKey {key : Text} (h : validKey key = true) :
  key ≠ [] ∧ Word key
  := by
  rw [validKey, Bool.and_eq_true, decide_eq_true_eq, List.all_eq_true] at h
  exact h

theorem isAsciiAlphanumeric_iff {c : Char} :
  isAsciiAlphanumeric c = true ↔
    (48 ≤ c.toNat ∧ c.toNat ≤ 57) ∨ (97 ≤ c.toNat ∧ c.toNat ≤ 122) ∨ 65 ≤ c.toNat ∧ c.toNat ≤ 90
  := by
  simp only [isAsciiAlphanumeric, Bool.or_eq_true, Bool.and_eq_true, decide_eq_true_eq, or_assoc]
  rfl

/-- No character of a key is a blank. -/
theorem isWhitespace_of_isWord {c : Char} (h : isWord c = true) :
  isWhitespace c = false
  := by
  simp only [isWord, Bool.or_eq_true, beq_iff_eq, isAsciiAlphanumeric_iff] at h
  rcases h with (halnum | rfl) | rfl
  · rw [← Bool.not_eq_true]
    simp only [isWhitespace, Bool.or_eq_true, Bool.and_eq_true, decide_eq_true_eq, beq_iff_eq]
    omega
  · rfl
  · rfl

/-- Every digit is a character of a key. -/
theorem isWord_of_digit {radix : Nat} {c : Char} (h : (digit radix c).isSome) :
  isWord c = true
  := by
  rw [isWord, Bool.or_eq_true, Bool.or_eq_true, isAsciiAlphanumeric_iff]
  apply Or.inl
  apply Or.inl
  by_contra hnot
  simp only [not_or, not_and_or, Nat.not_le] at hnot
  obtain ⟨hdec, hlow, hupp⟩ := hnot
  have hnone : digit radix c = none := by
    rw [digit, if_neg, if_neg, if_neg]
    · rfl
    · rintro ⟨h1, h2⟩
      change 65 ≤ _ at h1
      change _ ≤ 90 at h2
      omega
    · rintro ⟨h1, h2⟩
      change 97 ≤ _ at h1
      change _ ≤ 122 at h2
      omega
    · rintro ⟨h1, h2⟩
      change 48 ≤ _ at h1
      change _ ≤ 57 at h2
      omega
  rw [hnone] at h
  cases h

/-- A character that no key has is in no key. -/
theorem Word.not_mem {t : Text} (h : Word t) {c : Char} (hc : isWord c = false) :
  c ∉ t
  := by
  intro hmem
  rw [h c hmem] at hc
  cases hc

theorem Word.tight {t : Text} (h : Word t) :
  Tight t
  := Tight.of_forall fun c hc => isWhitespace_of_isWord (h c hc)

/-- The characters of a number are characters of a key, and the first is no sign. -/
theorem word_of_magnitude {d : Text} {m : Nat} (h : Magnitude (withoutUnderscores d) m) :
  d ≠ [] ∧ Word d ∧ ∀ neg r, d ≠ signChar neg :: r
  := by
  refine ⟨?_, ?_, ?_⟩
  · rintro rfl
    rcases magnitude_iff.mp h with ⟨⟨hne, _⟩, _⟩ | ⟨x, hs, _, heq, _⟩
    · exact hne rfl
    · cases heq
  · intro c hc
    by_cases hunder : c = '_'
    · subst hunder
      rfl
    · have hmem : c ∈ withoutUnderscores d := by
        rw [withoutUnderscores, List.mem_filter]
        exact ⟨hc, decide_eq_true hunder⟩
      rcases magnitude_iff.mp h with ⟨⟨_, hall⟩, _⟩ | ⟨x, hs, hx, heq, ⟨_, hall⟩, _⟩
      · exact isWord_of_digit (hall c hmem)
      · rw [heq, List.mem_cons, List.mem_cons] at hmem
        rcases hmem with rfl | rfl | hmem
        · rfl
        · rcases hx with rfl | rfl
          · rfl
          · rfl
        · exact isWord_of_digit (hall c hmem)
  · rintro neg r rfl
    rw [withoutUnderscores, List.filter_cons_of_pos] at h
    · exact not_magnitude_sign h
    · cases neg with
      | true => rfl
      | false => rfl

/-! ### Comments -/

theorem Word.plain {t : Text} (h : Word t) :
  Plain t
  := by
  intro c hc
  constructor
  · rintro rfl
    exact h.not_mem (by rfl) hc
  · rintro rfl
    exact h.not_mem (by rfl) hc

theorem plain_of_blanks {t : Text} (h : Blanks t) :
  Plain t
  := by
  intro c hc
  have hblank := h c hc
  constructor
  · rintro rfl
    cases hblank
  · rintro rfl
    cases hblank

/-- Outside of strings a text ends where its strings end, so that a comment behind it is one. -/
def Closed (t : Text) : Prop := ∀ rest, stripComment (t ++ rest) = t ++ stripComment rest

theorem closed_plain {t : Text} (h : Plain t) :
  Closed t
  := by
  intro rest
  induction t with
  | nil => rfl
  | cons c t ih =>
      obtain ⟨hquote, hhash⟩ := h c List.mem_cons_self
      have hrest : Plain t := fun d hd => h d (List.mem_cons_of_mem c hd)
      rw [List.cons_append, stripComment, stripCommentFrom, if_neg (by simp), if_neg (by simp [hquote]),
        if_neg (by simp [hhash])]
      exact congrArg (List.cons c) (ih hrest)

theorem Closed.append {s t : Text} (hs : Closed s) (ht : Closed t) :
  Closed (s ++ t)
  := by
  intro rest
  rw [List.append_assoc, hs, ht, List.append_assoc]

theorem Closed.cons {c : Char} {t : Text} (hc : c ≠ '"' ∧ c ≠ '#') (ht : Closed t) :
  Closed (c :: t)
  := by
  have hplain : Plain [c] := by
    intro d hd
    rwa [List.mem_singleton.mp hd]
  exact (closed_plain hplain).append ht

/-- Inside of a string nothing begins a comment, up to its end. -/
theorem stripComment_escaped {s t : Text} (h : Escaped s t) (rest : Text) :
  stripCommentFrom true false (t ++ '"' :: rest) = t ++ '"' :: stripComment rest
  := by
  induction h with
  | nil => rfl
  | raw hquote hslash _ ih =>
      rw [List.cons_append, stripCommentFrom, if_neg (by simp [hslash]), if_neg (by simp [hquote]),
        if_neg (by simp), ih]
      rfl
  | escape hescape _ ih =>
      rw [List.cons_append, List.cons_append, stripCommentFrom, if_pos ⟨rfl, rfl, rfl⟩,
        stripCommentFrom, if_neg (by simp), if_neg (by simp), if_neg (by simp), ih]
      rfl

theorem Quoted.closed {s q : Text} (h : Quoted s q) :
  Closed q
  := by
  obtain ⟨h⟩ := h
  intro rest
  rw [List.cons_append, List.append_assoc, stripComment, stripCommentFrom, if_neg (by simp),
    if_pos ⟨rfl, rfl⟩]
  apply congrArg
  apply (stripComment_escaped h rest).trans
  exact (List.append_assoc _ ['"'] _).symm

theorem closed_blanks {t : Text} (h : Blanks t) :
  Closed t
  := closed_plain (plain_of_blanks h)

theorem Word.closed {t : Text} (h : Word t) :
  Closed t
  := closed_plain h.plain

theorem closed_char {c : Char} (hc : c ≠ '"' ∧ c ≠ '#') :
  Closed [c]
  := Closed.cons hc (closed_plain (fun _ h => absurd h List.not_mem_nil))

theorem Items.closed {ss : List Text} {t : Text} (h : Items ss t) :
  Closed t
  := by
  induction h with
  | nil => exact fun _ => rfl
  | last hq => exact hq.closed
  | comma hq ha =>
      exact hq.closed.append ((closed_blanks ha).append (closed_char (by decide)))
  | cons hq ha hb _ _ ih =>
      exact hq.closed.append
        ((closed_blanks ha).append (Closed.cons (by decide) ((closed_blanks hb).append ih)))

theorem Spells.closed {v : Value} {t : Text} (h : Spells v t) :
  Closed t
  := by
  cases h with
  | str hq => exact hq.closed
  | int hd _ => exact (word_of_magnitude hd).2.1.closed
  | array ha hitems hb =>
      apply Closed.cons (by decide)
      apply Closed.append _ (closed_char (by decide))
      exact (closed_blanks ha).append (hitems.closed.append (closed_blanks hb))

theorem Dotted.closed {path : List Text} {t : Text} (h : Dotted path t) :
  Closed t
  := by
  induction h with
  | last hseg => exact (word_of_validKey hseg).2.closed
  | cons hseg ha hb _ ih =>
      exact (word_of_validKey hseg).2.closed.append
        ((closed_blanks ha).append (Closed.cons (by decide) ((closed_blanks hb).append ih)))

theorem Written.closed {stmt : Stmt} {t : Text} (h : Written stmt t) :
  Closed t
  := by
  cases h with
  | blank => exact fun _ => rfl
  | array ha hpath hb =>
      apply Closed.cons (by decide)
      apply Closed.cons (by decide)
      apply Closed.append _ (Closed.cons (by decide) (closed_char (by decide)))
      exact (closed_blanks ha).append (hpath.closed.append (closed_blanks hb))
  | table ha hpath hb =>
      apply Closed.cons (by decide)
      apply Closed.append _ (closed_char (by decide))
      exact (closed_blanks ha).append (hpath.closed.append (closed_blanks hb))
  | entry hkey ha hb hv =>
      exact (word_of_validKey hkey).2.closed.append
        ((closed_blanks ha).append (Closed.cons (by decide) ((closed_blanks hb).append hv.closed)))

theorem stripComment_comment {c : Text} (h : Comment c) :
  stripComment c = []
  := by
  cases c with
  | nil => rfl
  | cons c cs =>
      obtain rfl := h c rfl
      rfl

/-! ### Blanks at the ends -/

theorem Quoted.ends {s q : Text} (h : Quoted s q) :
  Tight q ∧ q ≠ []
  := by
  obtain ⟨h⟩ := h
  exact ⟨Tight.cons_concat rfl rfl, List.cons_ne_nil _ _⟩

theorem tight_char {c : Char} (hc : isWhitespace c = false) :
  Tight [c]
  := by
  apply Tight.of_forall
  intro d hd
  rwa [List.mem_singleton.mp hd]

theorem Items.ends {ss : List Text} {t : Text} (h : Items ss t) :
  Tight t ∧ (ss ≠ [] → t ≠ [])
  := by
  induction h with
  | nil => exact ⟨tight_nil, fun hne => absurd rfl hne⟩
  | last hq => exact ⟨hq.ends.1, fun _ => hq.ends.2⟩
  | comma hq ha =>
      rw [← List.append_assoc]
      refine ⟨hq.ends.1.append (tight_char rfl) hq.ends.2 (List.cons_ne_nil _ _), ?_⟩
      intro _
      simp
  | @cons s q a b t ss hq ha hb hne _ ih =>
      have htext : q ++ (a ++ ',' :: (b ++ t)) = q ++ (a ++ ',' :: b) ++ t := by simp
      rw [htext]
      refine ⟨hq.ends.1.append ih.1 hq.ends.2 (ih.2 hne), ?_⟩
      intro _ hnil
      exact ih.2 hne (List.append_eq_nil_iff.mp hnil).2

theorem Spells.ends {v : Value} {t : Text} (h : Spells v t) :
  Tight t ∧ t ≠ []
  := by
  cases h with
  | str hq => exact hq.ends
  | int hd _ => exact ⟨(word_of_magnitude hd).2.1.tight, (word_of_magnitude hd).1⟩
  | array _ _ _ => exact ⟨Tight.cons_concat rfl rfl, List.cons_ne_nil _ _⟩

theorem validKey_ends {key : Text} (h : validKey key = true) :
  Tight key ∧ key ≠ []
  := ⟨(word_of_validKey h).2.tight, (word_of_validKey h).1⟩

theorem Dotted.ends {path : List Text} {t : Text} (h : Dotted path t) :
  Tight t ∧ t ≠ []
  := by
  induction h with
  | last hseg => exact validKey_ends hseg
  | @cons seg a b t path hseg _ _ _ ih =>
      have htext : seg ++ (a ++ '.' :: (b ++ t)) = seg ++ (a ++ '.' :: b) ++ t := by simp
      rw [htext]
      refine ⟨(validKey_ends hseg).1.append ih.1 (validKey_ends hseg).2 ih.2, ?_⟩
      intro hnil
      exact ih.2 (List.append_eq_nil_iff.mp hnil).2

theorem Written.tight {stmt : Stmt} {t : Text} (h : Written stmt t) :
  Tight t
  := by
  cases h with
  | blank => exact tight_nil
  | @array path last a t b _ _ _ =>
      have htext : '[' :: '[' :: (a ++ (t ++ b) ++ [']', ']'])
          = '[' :: (('[' :: (a ++ (t ++ b) ++ [']'])) ++ [']']) := by simp
      rw [htext]
      exact Tight.cons_concat rfl rfl
  | table _ _ _ => exact Tight.cons_concat rfl rfl
  | @entry key a b t v hkey _ _ hv =>
      have htext : key ++ (a ++ '=' :: (b ++ t)) = key ++ (a ++ '=' :: b) ++ t := by simp
      rw [htext]
      exact (validKey_ends hkey).1.append hv.ends.1 (validKey_ends hkey).2 hv.ends.2

/-! ### Values -/

theorem scanString_quote (i : Nat) (out cs : Text) :
  scanString i out ('"' :: cs) = .ok (out, cs)
  := by
  rw [scanString.eq_def]
  rfl

theorem scanString_raw {c : Char} (hquote : c ≠ '"') (hslash : c ≠ '\\') (i : Nat) (out cs : Text) :
  scanString i out (c :: cs) = scanString (i + c.utf8Size) (out ++ [c]) cs
  := by
  rw [scanString.eq_def]
  dsimp only
  rw [if_neg hquote, if_neg hslash]

theorem scanString_escape {c e : Char} (h : unescape e = some c) (i : Nat) (out cs : Text) :
  scanString i out ('\\' :: e :: cs) = scanString (i + 1 + e.utf8Size) (out ++ [c]) cs
  := by
  rw [scanString.eq_def]
  dsimp only
  rw [if_neg (by decide), if_pos rfl, h]

/-- The scanner reads a string up to its closing quote. -/
theorem scanString_escaped {s t : Text} (h : Escaped s t) (i : Nat) (out rest : Text) :
  scanString i out (t ++ '"' :: rest) = .ok (out ++ s, rest)
  := by
  induction h generalizing i out with
  | nil => rw [List.nil_append, scanString_quote, List.append_nil]
  | raw hquote hslash _ ih =>
      rw [List.cons_append, scanString_raw hquote hslash, ih, List.append_assoc]
      rfl
  | escape hescape _ ih =>
      rw [List.cons_append, List.cons_append, scanString_escape hescape, ih, List.append_assoc]
      rfl

theorem parseString_quoted {s q : Text} (h : Quoted s q) (rest : Text) :
  parseString (q ++ rest) = .ok (s, rest)
  := by
  obtain ⟨h⟩ := h
  rw [List.cons_append, List.append_assoc, parseString]
  exact scanString_escaped h 0 [] rest

theorem parseItems_nil (fuel : Nat) :
  parseItems fuel [] = .ok []
  := by
  cases fuel with
  | zero => rfl
  | succ n => rfl

/-- A round reads a string, and goes on behind the comma. -/
theorem parseItems_succ {s q : Text} (h : Quoted s q) (fuel : Nat) (after : Text) :
  parseItems (fuel + 1) (q ++ after)
    = match trimStart after with
      | [] => pure [.str s]
      | ',' :: r => do
          let items ← parseItems fuel (trimStart r)
          pure (.str s :: items)
      | rest => .err (.expectedComma rest)
  := by
  have hne : q ++ after ≠ [] := fun hnil => h.ends.2 (List.append_eq_nil_iff.mp hnil).1
  rw [parseItems, if_neg hne, parseString_quoted h]
  rfl

theorem parseItems_comma {s q a r : Text} (h : Quoted s q) (ha : Blanks a) (fuel : Nat) :
  parseItems (fuel + 1) (q ++ (a ++ ',' :: r))
    = (parseItems fuel (trimStart r)).bind fun items => .ok (.str s :: items)
  := by
  rw [parseItems_succ h, trimStart_blanks ha, trimStart_of_head]
  · rfl
  · rintro c ⟨⟩
    rfl

/-- The strings of an array are read, if there are rounds for all of them. -/
theorem parseItems_items {ss : List Text} {t : Text} (h : Items ss t) {fuel : Nat}
    (hfuel : t.length ≤ fuel) :
  parseItems fuel t = .ok (ss.map .str)
  := by
  induction h generalizing fuel with
  | nil => exact parseItems_nil fuel
  | last hq =>
      have hpos := List.length_pos_iff.mpr hq.ends.2
      obtain ⟨n, rfl⟩ := Nat.exists_eq_succ_of_ne_zero (Nat.ne_of_gt (Nat.lt_of_lt_of_le hpos hfuel))
      have hstep := parseItems_succ hq n []
      rw [List.append_nil] at hstep
      rw [hstep]
      rfl
  | comma hq ha =>
      simp only [List.length_append, List.length_cons] at hfuel
      obtain ⟨n, rfl⟩ := Nat.exists_eq_succ_of_ne_zero (show fuel ≠ 0 by omega)
      rw [parseItems_comma hq ha]
      rw [show trimStart [] = [] from rfl, parseItems_nil]
      rfl
  | cons hq ha hb _ hitems ih =>
      simp only [List.length_append, List.length_cons] at hfuel
      obtain ⟨n, rfl⟩ := Nat.exists_eq_succ_of_ne_zero (show fuel ≠ 0 by omega)
      rw [parseItems_comma hq ha, trimStart_blanks hb, trimStart_of_head hitems.ends.1.head,
        ih (by omega)]
      rfl

/-- A number is read to its value. -/
theorem parseInt_magnitude (dbg : Bool) {m : Nat} {d : Text}
    (h : Magnitude (withoutUnderscores d) m) (hfits : Fits m) :
  parseInt dbg d = .ok m
  := by
  obtain ⟨_, hword, hsign⟩ := word_of_magnitude h
  have htrim : trim d = d := by
    have hpadded := trim_padded blanks_nil blanks_nil hword.tight
    rwa [List.nil_append, List.append_nil] at hpadded
  have hunsigned : ¬ Stripped d := by
    rintro ⟨neg, r, heq⟩
    rw [htrim] at heq
    exact hsign neg r heq
  rw [parseInt_of_unsigned hunsigned, unsignedPart_of_unsigned hunsigned, htrim]
  exact ⟨.inl ⟨m, h, rfl⟩, hfits⟩

theorem parseValue_quote (dbg : Bool) {s cs v rest : Text} (htrim : trim s = '"' :: cs)
    (hstring : parseString ('"' :: cs) = .ok (v, rest)) (hrest : trim rest = []) :
  parseValue dbg s = .ok (.str v)
  := by
  rw [parseValue.eq_def, htrim]
  change (parseString ('"' :: cs)).bind _ = _
  rw [hstring]
  change (Res.failIf (trim rest ≠ []) _).bind _ = _
  rw [Res.failIf_of_not (not_not.mpr hrest)]
  rfl

theorem parseValue_bracket (dbg : Bool) {s inner : Text} {items : List Value}
    (htrim : trim s = '[' :: (inner ++ [']']))
    (hitems : parseItems (trim inner).length (trim inner) = .ok items) :
  parseValue dbg s = .ok (.array items)
  := by
  rw [parseValue.eq_def, htrim]
  change (if (inner ++ [']']).getLast? = some ']' then _ else _) = _
  rw [if_pos List.getLast?_concat, List.dropLast_concat]
  dsimp only
  rw [hitems]
  rfl

theorem parseValue_word (dbg : Bool) {s t : Text} {i : Int} (htrim : trim s = t) (hne : t ≠ [])
    (hword : Word t) (hint : parseInt dbg t = .ok i) :
  parseValue dbg s = .ok (.int i)
  := by
  rw [parseValue.eq_def, htrim]
  split
  · exact absurd List.mem_cons_self (hword.not_mem (by rfl))
  · exact absurd List.mem_cons_self (hword.not_mem (by rfl))
  · rw [hint]
    rfl

/-- A value is read as it is written. -/
theorem parseValue_spells (dbg : Bool) {v : Value} {b t : Text} (hb : Blanks b) (h : Spells v t) :
  parseValue dbg (b ++ t) = .ok v
  := by
  have htrim : trim (b ++ t) = t := by
    have hpadded := trim_padded hb blanks_nil h.ends.1
    rwa [List.append_nil] at hpadded
  cases h with
  | str hq =>
      have hstring := parseString_quoted hq []
      rw [List.append_nil] at hstring
      obtain ⟨hs⟩ := hq
      exact parseValue_quote dbg htrim hstring rfl
  | int hd hfits =>
      obtain ⟨hne, hword, _⟩ := word_of_magnitude hd
      exact parseValue_word dbg htrim hne hword (parseInt_magnitude dbg hd hfits)
  | array ha hitems hb' =>
      apply parseValue_bracket dbg htrim
      rw [trim_padded ha hb' hitems.ends.1]
      exact parseItems_items hitems (Nat.le_refl _)

/-! ### Headers -/

theorem map_trim_splitOn_blanks {b : Text} (hb : Blanks b) (t : Text) :
  ((b ++ t).splitOn '.').map trim = (t.splitOn '.').map trim
  := by
  induction b with
  | nil => rfl
  | cons c b ih =>
      have hdot : ¬ (c == '.') = true := by
        rw [beq_iff_eq]
        rintro rfl
        cases hb '.' List.mem_cons_self
      have hrest : Blanks b := fun d hd => hb d (List.mem_cons_of_mem c hd)
      rw [← ih hrest, List.cons_append, List.splitOn_cons_eq_if_modifyHead, if_neg hdot]
      cases hsplit : (b ++ t).splitOn '.' with
      | nil => rfl
      | cons seg segs =>
          have hc : Blanks [c] := by
            intro d hd
            rw [List.mem_singleton.mp hd]
            exact hb c List.mem_cons_self
          rw [List.modifyHead_cons, List.map_cons, List.map_cons]
          apply congrArg (· :: segs.map trim)
          exact congrArg (List.rdropWhile isWhitespace) (trimStart_blanks hc seg)

/-- The segments of a path are what stands between its dots. -/
theorem segments_dotted {path : List Text} {t : Text} (h : Dotted path t) :
  (t.splitOn '.').map trim = path
  := by
  induction h with
  | @last seg hseg =>
      have htrim := trim_padded blanks_nil blanks_nil (validKey_ends hseg).1
      rw [List.nil_append, List.append_nil] at htrim
      rw [List.splitOn_eq_singleton ((word_of_validKey hseg).2.not_mem (by rfl)), List.map_singleton,
        htrim]
  | @cons seg a b t path hseg ha hb _ ih =>
      have htrim := trim_padded blanks_nil ha (validKey_ends hseg).1
      rw [List.nil_append] at htrim
      have hdot : '.' ∉ seg ++ a := by
        intro hmem
        rcases List.mem_append.mp hmem with hmem | hmem
        · exact (word_of_validKey hseg).2.not_mem (by rfl) hmem
        · cases ha '.' hmem
      rw [← List.append_assoc, List.splitOn_append_cons_self_of_not_mem hdot, List.map_cons, htrim,
        map_trim_splitOn_blanks hb, ih]

theorem segments_header {path : List Text} {a t b : Text} (ha : Blanks a) (h : Dotted path t)
    (hb : Blanks b) :
  segments (a ++ (t ++ b)) = path
  := by
  rw [segments, trim_padded ha hb h.ends.1, segments_dotted h]

theorem stripSuffix_append (s ending : Text) :
  stripSuffix (s ++ ending) ending = some s
  := by
  rw [stripSuffix, if_pos (List.suffix_append s ending), List.length_append,
    Nat.add_sub_cancel, List.take_left]

/-! ### Lines -/

theorem splitKey_append {k rest : Text} (h : '=' ∉ k) :
  splitKey (k ++ '=' :: rest) = some (k, rest)
  := by
  induction k with
  | nil => rfl
  | cons c k ih =>
      rw [List.mem_cons, not_or] at h
      rw [List.cons_append, splitKey, if_neg (Ne.symm h.1), ih h.2]
      rfl

theorem parseStripped_table (dbg : Bool) (doc : Doc) {h : Text} (hhead : h.head? ≠ some '[') :
  parseStripped dbg doc ('[' :: h) = openTable doc h
  := by
  rw [parseStripped.eq_def]
  split
  · rename_i heq
    cases heq
  · rename_i heq
    obtain ⟨_, rfl⟩ := List.cons.inj heq
    exact absurd rfl hhead
  · rename_i heq
    obtain ⟨_, rfl⟩ := List.cons.inj heq
    rfl
  · rename_i hnot
    exact (hnot h rfl).elim

theorem parseStripped_key (dbg : Bool) (doc : Doc) {line : Text} (hne : line ≠ [])
    (hhead : line.head? ≠ some '[') :
  parseStripped dbg doc line = addKey dbg doc line
  := by
  rw [parseStripped.eq_def]
  split
  · exact absurd rfl hne
  · exact absurd rfl hhead
  · exact absurd rfl hhead
  · rfl

theorem Dotted.valid {path : List Text} {t : Text} (h : Dotted path t) :
  ∀ seg ∈ path, validKey seg = true
  := by
  induction h with
  | last hseg =>
      intro seg hmem
      rwa [List.mem_singleton.mp hmem]
  | cons hseg _ _ _ ih =>
      intro seg hmem
      rcases List.mem_cons.mp hmem with rfl | hmem
      · exact hseg
      · exact ih seg hmem

theorem head_of_validKey {key : Text} (h : validKey key = true) (rest : Text) :
  (key ++ rest).head? ≠ some '['
  := by
  intro hhead
  rw [List.head?_append_of_ne_nil _ (word_of_validKey h).1] at hhead
  exact (word_of_validKey h).2.not_mem (by rfl) (List.mem_of_head? hhead)

theorem Dotted.head {path : List Text} {t : Text} (h : Dotted path t) (rest : Text) :
  (t ++ rest).head? ≠ some '['
  := by
  cases h with
  | last hseg => exact head_of_validKey hseg rest
  | cons hseg _ _ _ =>
      rw [List.append_assoc]
      exact head_of_validKey hseg _

theorem head_of_blanks {a : Text} (ha : Blanks a) {t : Text} (ht : t.head? ≠ some '[') :
  (a ++ t).head? ≠ some '['
  := by
  cases a with
  | nil => exact ht
  | cons c a =>
      rintro ⟨⟩
      cases ha '[' List.mem_cons_self

/-- The parser does what a statement says. -/
theorem parseStripped_written (dbg : Bool) (doc : Doc) {stmt : Stmt} {t : Text}
    (h : Written stmt t) :
  parseStripped dbg doc t = stmt.run doc
  := by
  cases h with
  | blank => rfl
  | @array path last a t b ha hpath hb =>
      have hvalid := hpath.valid last (List.mem_append_right path List.mem_cons_self)
      change openArray doc (a ++ (t ++ b) ++ [']', ']']) = _
      rw [openArray, stripSuffix_append]
      dsimp only
      rw [segments_header ha hpath hb, List.getLast?_concat]
      dsimp only
      rw [if_pos hvalid, List.dropLast_concat]
      rfl
  | @table path a t b ha hpath hb =>
      have hhead : (a ++ (t ++ b) ++ [']']).head? ≠ some '[' := by
        rw [List.append_assoc, List.append_assoc]
        exact head_of_blanks ha (hpath.head _)
      rw [parseStripped_table dbg doc hhead, openTable, stripSuffix_append]
      dsimp only
      rw [segments_header ha hpath hb]
      rfl
  | @entry key a b t v hkey ha hb hv =>
      have hne : key ++ (a ++ '=' :: (b ++ t)) ≠ [] :=
        fun hnil => (validKey_ends hkey).2 (List.append_eq_nil_iff.mp hnil).1
      have heq : '=' ∉ key ++ a := by
        intro hmem
        rcases List.mem_append.mp hmem with hmem | hmem
        · exact (word_of_validKey hkey).2.not_mem (by rfl) hmem
        · cases ha '=' hmem
      have htrim := trim_padded blanks_nil ha (validKey_ends hkey).1
      rw [List.nil_append] at htrim
      rw [parseStripped_key dbg doc hne (head_of_validKey hkey _), addKey, ← List.append_assoc,
        splitKey_append heq]
      dsimp only
      rw [htrim, if_pos hkey, parseValue_spells dbg hb hv]
      rfl

/-- The parser does what a line says. -/
theorem parseLine_renders (dbg : Bool) (doc : Doc) {stmt : Stmt} {raw : Text}
    (h : Renders stmt raw) :
  parseLine dbg doc raw = stmt.run doc
  := by
  obtain ⟨hp, ht, hq, hc⟩ := h
  have hclosed := (closed_blanks hp).append (ht.closed.append (closed_blanks hq))
  rw [parseLine, hclosed, stripComment_comment hc, List.append_nil, trim_padded hp hq ht.tight,
    parseStripped_written dbg doc ht]

/-- A `\r` at the end of a line makes no difference. -/
theorem parseLine_cr (dbg : Bool) (doc : Doc) (raw : Text) :
  parseLine dbg doc (raw ++ ['\r']) = parseLine dbg doc raw
  := by
  have hcr : Blanks ['\r'] := by
    intro c hc
    rw [List.mem_singleton.mp hc]
    rfl
  have hstrip : ∀ inStr escaped, stripCommentFrom inStr escaped (raw ++ ['\r'])
      = stripCommentFrom inStr escaped raw ∨ stripCommentFrom inStr escaped (raw ++ ['\r'])
      = stripCommentFrom inStr escaped raw ++ ['\r'] := by
    induction raw with
    | nil =>
        intro inStr escaped
        right
        revert inStr escaped
        decide
    | cons c raw ih =>
        intro inStr escaped
        rw [List.cons_append, stripCommentFrom, stripCommentFrom]
        split
        · exact (ih _ _).imp (congrArg (List.cons c)) (congrArg (List.cons c))
        · split
          · exact (ih _ _).imp (congrArg (List.cons c)) (congrArg (List.cons c))
          · split
            · exact .inl rfl
            · exact (ih _ _).imp (congrArg (List.cons c)) (congrArg (List.cons c))
  rw [parseLine, parseLine, stripComment, stripComment]
  rcases hstrip false false with h | h
  · rw [h]
  · rw [h, trim_append_blanks hcr]

/-- The parser does what the lines of a document say. -/
theorem parseLines_renders (dbg : Bool) {ls raws : List Text} (hlines : SameLines ls raws)
    {stmts : List Stmt} (h : List.Forall₂ Renders stmts raws) {lineno : Nat} {doc doc' : Doc}
    (hrun : Stmt.runAll doc stmts = .ok doc') :
  parseLines dbg lineno doc ls = .ok doc'
  := by
  induction hlines generalizing stmts lineno doc with
  | nil =>
      cases h with
      | cons hstmt hnil =>
          cases hnil
          rw [Stmt.runAll, ← parseLine_renders dbg doc hstmt] at hrun
          have hempty : parseLine dbg doc [] = .ok doc := rfl
          rw [hempty] at hrun
          cases hrun
          rfl
  | last =>
      cases h with
      | cons hstmt hnil =>
          cases hnil
          rw [Stmt.runAll, ← parseLine_renders dbg doc hstmt] at hrun
          obtain ⟨doc'', hline, hend⟩ := Res.bind_eq_ok.mp hrun
          cases hend
          rw [parseLines, hline]
          rfl
  | @cons l raw ls raws hl _ ih =>
      cases h with
      | cons hstmt hrest =>
          rw [Stmt.runAll, ← parseLine_renders dbg doc hstmt] at hrun
          obtain ⟨doc'', hline, hend⟩ := Res.bind_eq_ok.mp hrun
          have hread : parseLine dbg doc l = .ok doc'' := by
            rcases hl with rfl | rfl
            · exact hline
            · rwa [parseLine_cr] at hline
          rw [parseLines, hread]
          exact ih hrest hend

/-- The parser does what the lines of a text say. -/
theorem parseDoc_renders (dbg : Bool) {text : Text} {stmts : List Stmt}
    (h : List.Forall₂ Renders stmts (text.splitOn '\n')) {doc : Doc}
    (hrun : Stmt.runAll { root := [], curPath := [] } stmts = .ok doc) :
  parseDoc dbg text = .ok (.table doc.root)
  := by
  rw [parseDoc, parseLines_renders dbg (lines_splitOn text) h hrun]
  rfl

end Tiny

end Agent
