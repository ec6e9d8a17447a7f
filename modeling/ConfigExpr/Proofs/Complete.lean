import ConfigExpr.Proofs.Sound

/-!
# What the grammar derives

The parser returns every derived tree, from any tokens whose texts are the derived ones and with
whatever follows left over, provided that what follows cannot go on with an expression
(`complete_expression`). Hence a token list derives one tree at most (`Grammar.Expression.unique`).
-/

namespace ConfigExpr

open Grammar Outcome

/-- What follows does not go on with an expression: no operator, and no arrow that would make a
parameter of a name in parentheses. -/
def Follows (rest : List Spanned) : Prop :=
  ∀ t ∈ rest.head?, t.token.isOperator = false ∧ t.token ≠ .mark .arrow

theorem Follows.stops {rest : List Spanned} (h : Follows rest) : Stops rest :=
  fun t ht => (h t ht).1

theorem Follows.cons {t : Spanned} {rest : List Spanned} {a : Token} (ht : t.token = a)
    (ha : a.isOperator = false) (harrow : a ≠ .mark .arrow) : Follows (t :: rest) := by
  subst ht
  rintro u ⟨⟩
  exact ⟨ha, harrow⟩

theorem beginsWith_iff {m : Mark} {ts : List Spanned} :
    beginsWith m ts = true ↔ ∃ t ∈ ts.head?, t.token = .mark m := by
  cases ts with
  | nil => simp [beginsWith]
  | cons t ts => simp [beginsWith, Token.isMark_iff]

namespace Grammar

variable {us : List Token} {e p : Expr}

theorem Operators.head (h : Operators p us e) : ∀ t ∈ us.head?, t.isOperator = true := by
  cases h <;> rintro t ⟨⟩ <;> rfl

theorem Bindings.head {bs : List Binding} (h : Bindings us bs) :
    ∀ t ∈ us.head?, ∃ name, t = .ident name := by
  cases h <;> rintro t ⟨⟩
  exact ⟨_, rfl⟩

theorem Key.eq_ident_or_string {t : Token} {name : Name} (h : Key t name) :
    (∃ text, t = .ident text) ∨ ∃ parts, t = .string parts := by
  cases h with
  | name text => exact .inl ⟨_, rfl⟩
  | string texts => exact .inr ⟨_, rfl⟩

theorem Entries.head {es : List Entry} (h : Entries us es) :
    ∀ t ∈ us.head?, ∃ name, Key t name := by
  cases h <;> rintro t ⟨⟩
  exact ⟨_, ‹_›⟩

end Grammar

/-- The tokens after an opening parenthesis begin a group if they begin an expression other than
a name. -/
theorem ofTokens_eq_group {ts : List Spanned} {e : Expr} (rest : List Spanned)
    (h : Expression (ts.map (·.token)) e) :
    ParenForm.ofTokens (ts ++ rest) = .group ∨
      ∃ t text, ts = [t] ∧ t.token = .ident text ∧ e = .name (.of text) := by
  obtain ⟨t, us, ht, hstart⟩ := h.head
  obtain ⟨t, ts, rfl, rfl, rfl⟩ := List.map_eq_cons_iff.1 ht
  by_cases hident : ∃ text, t.token = .ident text
  · obtain ⟨text, htext⟩ := hident
    generalize hus : ((t :: ts).map (·.token)) = us at h
    cases h with
    | letIn => simp [htext] at hus
    | lambda => simp [htext] at hus
    | chain hp ho =>
      cases hp <;> simp [htext] at hus
      case name =>
      obtain ⟨rfl, rfl⟩ := hus
      cases ts with
      | nil =>
        cases ho
        exact .inr ⟨t, text, rfl, htext, rfl⟩
      | cons u ts =>
        left
        simp only [List.cons_append, ParenForm.ofTokens, htext]
        rcases Token.isOperator_iff.1 (ho.head u.token rfl) with hu | hu | hu <;>
          simp [hu, Token.isMark]
  · left
    simp only [List.cons_append, ParenForm.ofTokens]
    split
    · simp_all [Token.isStart]
    · exact absurd ⟨_, ‹_›⟩ hident
    · rfl

theorem complete_parameters (rest : List Spanned) : ∀ {names : List String} {ts : List Spanned},
    names ≠ [] → ts.map (·.token) = nameTokens names ++ [.mark .closeParen] →
    ∃ ns, (parameters (ts ++ rest)).Returns ns rest ∧ ns.map (·.text) = names
  | [name], ts, _, h => by
    obtain ⟨t, _, rfl, ht, h⟩ := List.map_eq_cons_iff.1 h
    obtain ⟨u, _, rfl, hu, h⟩ := List.map_eq_cons_iff.1 h
    obtain rfl := List.map_eq_nil_iff.1 h
    refine ⟨[⟨name, t.span⟩], returns_parameters.2 ?_, rfl⟩
    refine ⟨⟨name, t.span⟩, u :: rest, returns_expectName.2 ⟨t, rfl, ht, rfl⟩, ?_⟩
    simp [hu, Token.isMark]
  | name :: name' :: names, ts, _, h => by
    obtain ⟨t, _, rfl, ht, h⟩ := List.map_eq_cons_iff.1 h
    obtain ⟨u, ts, rfl, hu, h⟩ := List.map_eq_cons_iff.1 h
    obtain ⟨ns, hns, htexts⟩ := complete_parameters rest (by simp) h
    refine ⟨⟨name, t.span⟩ :: ns, returns_parameters.2 ?_, by simp [htexts]⟩
    refine ⟨⟨name, t.span⟩, u :: (ts ++ rest), returns_expectName.2 ⟨t, rfl, ht, rfl⟩, ?_⟩
    simpa [hu, Token.isMark] using hns

theorem parseAll_texts (texts : List String) :
    Segment.parseAll (texts.map .text) = .ok (texts.map .text) := by
  induction texts with
  | nil => rw [List.map_nil, Segment.parseAll, List.map_nil]
  | cons s texts ih => exact parseAll_segments_text.2 ⟨_, ih, rfl⟩

theorem plainText?_texts (texts : List String) :
    Segment.plainText? (texts.map .text) = some (String.join texts) := by
  induction texts with
  | nil => rfl
  | cons s texts ih => simp [Segment.plainText?, ih]

/-- The parser returns the tree `e` from tokens with the texts `us`. -/
def Expr.Completes (us : List Token) (e : Expr) : Prop :=
  ∀ ⦃ts : List Spanned⦄ (rest : List Spanned), ts.map (·.token) = us → Follows rest →
    ∃ e', (Expr.parse (ts ++ rest)).Returns e' rest ∧ e'.unplaced = e

/-- The operators `us` make `e` of the operand `p`. -/
def Expr.CompletesFrom (p : Expr) (us : List Token) (e : Expr) : Prop :=
  ∀ ⦃ts rest : List Spanned⦄, ts.map (·.token) = us → Follows rest →
    ∀ {n : Nat} (q : Expr) (h : Spanned.weightAll (ts ++ rest) < n), q.unplaced = p →
    ∃ e', (Expr.parsePostfix q (ts ++ rest) h).Returns e' rest ∧ e'.unplaced = e

def Expr.CompletesAll (us : List Token) (es : List Expr) : Prop :=
  ∀ ⦃ts : List Spanned⦄ (rest : List Spanned) {t : Spanned} {close : Mark},
    ts.map (·.token) = us → (close = .closeBracket ∨ close = .closeParen) →
    t.token = .mark close →
    ∃ items stop, (Expr.parseSequence close (ts ++ t :: rest)).Returns (items, stop) rest ∧
      items.map Expr.unplaced = es

def Binding.CompletesAll (us : List Token) (bs : List Binding) : Prop :=
  ∀ ⦃ts rest : List Spanned⦄ {t : Spanned}, ts.map (·.token) = us → t.token = .keyword .inWord →
    ∀ {n : Nat} (h : Spanned.weightAll (ts ++ t :: rest) < n),
    ∃ bindings, (Binding.parseAll (ts ++ t :: rest) h).Returns bindings (t :: rest) ∧
      bindings.map Binding.unplaced = bs

def Entry.CompletesAll (us : List Token) (es : List Entry) : Prop :=
  ∀ ⦃ts : List Spanned⦄ (rest : List Spanned) {t : Spanned}, ts.map (·.token) = us →
    t.token = .mark .closeBrace →
    ∃ entries stop, (Entry.parseAll (ts ++ t :: rest)).Returns (entries, stop) rest ∧
      entries.map Entry.unplaced = es

/-- A primary form is taken whatever follows it, except for an arrow. -/
def Expr.CompletesPrimary (us : List Token) (p : Expr) : Prop :=
  ∀ ⦃ts : List Spanned⦄ (rest : List Spanned), ts.map (·.token) = us →
    beginsWith .arrow rest = false →
    ∃ e', (Expr.parsePrimary (ts ++ rest)).Returns e' rest ∧ e'.unplaced = p

section

variable {ts rest : List Spanned} {t : Spanned} {us : List Token} {body : Expr}

theorem complete_parseLambda (start : Nat) (names : List Name)
    (hnames : (names.map (·.text)).Nodup) (hbody : Expr.Completes us body)
    (ht : t.token = .mark .arrow) (hts : ts.map (·.token) = us) (hrest : Follows rest) :
    ∃ e', (Expr.parseLambda start names (t :: ts ++ rest)).Returns e' rest ∧
      e'.unplaced = .lambda (names.map Name.unplaced) body .nowhere := by
  obtain ⟨b, hb, rfl⟩ := hbody rest hts hrest
  refine ⟨.lambda names b ⟨start, b.span.stop⟩, returns_parseLambda.2 ⟨?_, ?_⟩, by simp⟩
  · exact Name.repeated?_eq_none_iff.2 ⟨hnames, by simp⟩
  · exact ⟨t.span, ts ++ rest, b, returns_expectMark.2 ⟨t, rfl, ht, rfl⟩, hb, rfl⟩

theorem complete_parseParen_lambda (start : Nat) (names : List String) (hnames : names.Nodup)
    (hbody : Expr.Completes us body)
    (hts : ts.map (·.token) = nameTokens names ++ .mark .closeParen :: .mark .arrow :: us)
    (hrest : Follows rest) :
    ∃ e', (Expr.parseParen start (ts ++ rest)).Returns e' rest ∧
      e'.unplaced = .lambda (names.map .of) body .nowhere := by
  match names with
  | [] =>
    obtain ⟨t, _, rfl, ht, h⟩ := List.map_eq_cons_iff.1 hts
    obtain ⟨u, ts, rfl, hu, h⟩ := List.map_eq_cons_iff.1 h
    obtain ⟨e', he', heq⟩ :=
      complete_parseLambda start [] (by simp) hbody hu h hrest
    refine ⟨e', returns_parseParen.2 ?_, heq⟩
    have hform : ParenForm.ofTokens (t :: u :: ts ++ rest) = .noParameters := by
      simp [ParenForm.ofTokens, ht]
    rw [hform]
    exact ⟨t.span, _, returns_expectMark.2 ⟨t, rfl, ht, rfl⟩, he'⟩
  | [name] =>
    obtain ⟨t, _, rfl, ht, h⟩ := List.map_eq_cons_iff.1 hts
    obtain ⟨u, _, rfl, hu, h⟩ := List.map_eq_cons_iff.1 h
    obtain ⟨v, ts, rfl, hv, h⟩ := List.map_eq_cons_iff.1 h
    obtain ⟨e', he', heq⟩ := complete_parseLambda start [⟨name, t.span⟩] (by simp)
      hbody hv h hrest
    refine ⟨e', returns_parseParen.2 ?_, heq⟩
    have hform : ParenForm.ofTokens (t :: u :: v :: ts ++ rest) = .singleName := by
      simp [ParenForm.ofTokens, ht, hu, Token.isMark]
    rw [hform]
    refine ⟨⟨name, t.span⟩, _, returns_expectName.2 ⟨t, rfl, ht, rfl⟩, u.span, _,
      returns_expectMark.2 ⟨u, rfl, hu, rfl⟩, ?_⟩
    rw [if_pos (by simp [beginsWith, hv, Token.isMark])]
    exact he'
  | name :: name' :: names =>
    have hsplit : ts.map (·.token) = (nameTokens (name :: name' :: names) ++ [.mark .closeParen]) ++
        .mark .arrow :: us := by simpa using hts
    obtain ⟨ps, _, rfl, hps, h⟩ := List.map_eq_append_iff.1 hsplit
    obtain ⟨v, ts, rfl, hv, h⟩ := List.map_eq_cons_iff.1 h
    obtain ⟨ns, hns, htexts⟩ := complete_parameters (v :: ts ++ rest) (by simp) hps
    obtain ⟨e', he', heq⟩ :=
      complete_parseLambda start ns (htexts ▸ hnames) hbody hv h hrest
    rw [Name.map_unplaced, htexts] at heq
    refine ⟨e', returns_parseParen.2 ?_, heq⟩
    have hform : ParenForm.ofTokens (ps ++ v :: ts ++ rest) = .parameterList := by
      obtain ⟨t, _, rfl, ht, h⟩ := List.map_eq_cons_iff.1 hps
      obtain ⟨u, _, rfl, hu, h⟩ := List.map_eq_cons_iff.1 h
      simp [ParenForm.ofTokens, ht, hu, Token.isMark]
    rw [hform]
    rw [List.append_assoc]
    exact ⟨ns, v :: ts ++ rest, hns, he'⟩

theorem complete_parseParen_group (start : Nat) {e : Expr} (he : Expression us e)
    (hcomplete : Expr.Completes us e) (hts : ts.map (·.token) = us)
    (ht : t.token = .mark .closeParen) (hrest : beginsWith .arrow rest = false) :
    ∃ e', (Expr.parseParen start (ts ++ t :: rest)).Returns e' rest ∧ e'.unplaced = e := by
  subst hts
  rcases ofTokens_eq_group (t :: rest) he with hform | ⟨u, text, rfl, hu, rfl⟩
  · obtain ⟨e', he', heq⟩ := hcomplete (t :: rest) rfl
      (.cons ht rfl nofun)
    refine ⟨e', returns_parseParen.2 ?_, heq⟩
    rw [hform]
    exact ⟨e', t :: rest, he', t.span, returns_expectMark.2 ⟨t, rfl, ht, rfl⟩, rfl⟩
  · refine ⟨.name ⟨text, u.span⟩, returns_parseParen.2 ?_, rfl⟩
    have hform : ParenForm.ofTokens ([u] ++ t :: rest) = .singleName := by
      simp [ParenForm.ofTokens, hu, ht, Token.isMark]
    rw [hform]
    refine ⟨⟨text, u.span⟩, t :: rest, returns_expectName.2 ⟨u, rfl, hu, rfl⟩, t.span, rest,
      returns_expectMark.2 ⟨t, rfl, ht, rfl⟩, ?_⟩
    rw [if_neg (by simp [hrest])]
    exact ⟨rfl, rfl⟩

theorem complete_atom {a : Token} {p : Expr}
    (ha : ∀ t : Spanned, t.token = a → ∃ e', t.atom? = some e' ∧ e'.unplaced = p) :
    Expr.CompletesPrimary [a] p := by
  intro ts rest hts _
  obtain ⟨t, _, rfl, ht, h⟩ := List.map_eq_cons_iff.1 hts
  obtain rfl := List.map_eq_nil_iff.1 h
  obtain ⟨e', he', heq⟩ := ha t ht
  exact ⟨e', returns_parsePrimary.2 (.inl ⟨he', rfl⟩), heq⟩

/-- No arrow follows an operand. -/
theorem beginsWith_arrow_eq_false {p e : Expr} (ho : Operators p us e)
    (hts : ts.map (·.token) = us) (hrest : Follows rest) :
    beginsWith .arrow (ts ++ rest) = false := by
  rw [← Bool.not_eq_true, beginsWith_iff]
  rintro ⟨t, hmem, ht⟩
  subst hts
  cases ts with
  | nil => exact (hrest t hmem).2 ht
  | cons u ts =>
    cases hmem
    have := ho.head t.token rfl
    simp [ht, Token.isOperator] at this

/-- Where a field is read no call follows. -/
theorem beginsWith_openParen_eq_false (hne : us.head? ≠ some (.mark .openParen))
    (hts : ts.map (·.token) = us) (hrest : Follows rest) :
    beginsWith .openParen (ts ++ rest) = false := by
  rw [← Bool.not_eq_true, beginsWith_iff]
  rintro ⟨t, hmem, ht⟩
  subst hts
  cases ts with
  | nil => simpa [ht, Token.isOperator] using (hrest t hmem).1
  | cons u ts =>
    cases hmem
    exact hne (by simp [ht])

theorem follows_close {close : Mark} (hclose : close = .closeBracket ∨ close = .closeParen)
    (ht : t.token = .mark close) : Follows (t :: rest) := by
  rcases hclose with rfl | rfl
  · exact .cons ht rfl nofun
  · exact .cons ht rfl nofun

/-- The tokens of an expression do not begin with the mark that closes a sequence. -/
theorem exists_cons_of_expression {close : Mark} {e : Expr} (he : Expression us e)
    (hts : ts.map (·.token) = us) (hclose : close = .closeBracket ∨ close = .closeParen) :
    ∃ u us, ts = u :: us ∧ u.token.isMark close = false := by
  obtain ⟨t, us', rfl, ht⟩ := he.head
  obtain ⟨u, us, rfl, rfl, -⟩ := List.map_eq_cons_iff.1 hts
  refine ⟨u, us, rfl, ?_⟩
  rw [← Bool.not_eq_true, Token.isMark_iff]
  intro hu
  rcases hclose with rfl | rfl <;> simp [hu, Token.isStart] at ht

theorem follows_bindings {bs : List Binding} (hbs : Bindings us bs) (hts : ts.map (·.token) = us)
    (ht : t.token = .keyword .inWord) : Follows (ts ++ t :: rest) := by
  subst hts
  cases ts with
  | nil => exact .cons ht rfl nofun
  | cons u ts =>
    obtain ⟨name, hu⟩ := hbs.head u.token rfl
    exact .cons hu rfl nofun

/-- After the value of an entry no expression goes on, and only its own comma is skipped. -/
theorem follows_entries {commas : List Token} {es : List Entry} {cs : List Spanned}
    (hc : Separator commas) (hes : Entries us es) (hcs : cs.map (·.token) = commas)
    (hts : ts.map (·.token) = us) (ht : t.token = .mark .closeBrace) :
    Follows (cs ++ (ts ++ t :: rest)) ∧ skipComma (cs ++ (ts ++ t :: rest)) = ts ++ t :: rest := by
  cases hc with
  | comma =>
    obtain ⟨c, _, rfl, hc, h⟩ := List.map_eq_cons_iff.1 hcs
    obtain rfl := List.map_eq_nil_iff.1 h
    exact ⟨.cons hc rfl (by simp), by simp [skipComma, hc, Token.isMark]⟩
  | none =>
    obtain rfl := List.map_eq_nil_iff.1 hcs
    subst hts
    cases ts with
    | nil =>
      exact ⟨.cons ht rfl (by simp), by simp [skipComma, ht, Token.isMark]⟩
    | cons u ts =>
      obtain ⟨name, hk⟩ := hes.head u.token rfl
      rcases hk.eq_ident_or_string with ⟨_, hu⟩ | ⟨_, hu⟩
      · exact ⟨.cons hu rfl (by simp), by simp [skipComma, hu, Token.isMark]⟩
      · exact ⟨.cons hu rfl (by simp), by simp [skipComma, hu, Token.isMark]⟩

theorem complete_parseKey {key : Name} (hk : Key t.token key) (ts : List Spanned) :
    ∃ key', Name.parseKey t ts = .ok key' ∧ key'.unplaced = key := by
  generalize ha : t.token = a at hk
  cases hk with
  | name text =>
    exact ⟨⟨text, t.span⟩, parseKey_eq_ok_iff.2 (.inl ⟨ha, rfl⟩), rfl⟩
  | string texts =>
    refine ⟨⟨String.join texts, t.span⟩, parseKey_eq_ok_iff.2 (.inr ⟨_, texts.map .text, ha, ?_, ?_,
      rfl⟩), rfl⟩
    · exact parseAll_texts texts
    · exact plainText?_texts texts

/-! ## One rule at a time -/

variable {ks as bs es os : List Token} {e p key : Expr} {name : String} {arguments : List Expr}

theorem complete_letIn {bindings : List Binding} (hne : bindings ≠ [])
    (hbs : Binding.CompletesAll bs bindings) (hbody : Expr.Completes es body) :
    Expr.Completes (.keyword .letWord :: bs ++ .keyword .inWord :: es)
      (.letIn bindings body .nowhere) := by
  intro ts rest hts hrest
  obtain ⟨t, _, rfl, ht, h⟩ := List.map_eq_cons_iff.1 hts
  obtain ⟨bs, _, rfl, hbs', h⟩ := List.map_eq_append_iff.1 h
  obtain ⟨u, es, rfl, hu, h⟩ := List.map_eq_cons_iff.1 h
  obtain ⟨b, hb, rfl⟩ := hbody rest h hrest
  have hlt : Spanned.weightAll (bs ++ u :: (es ++ rest)) <
      Spanned.weightAll (t :: (bs ++ u :: es) ++ rest) := by
    simpa using Spanned.weightAll_lt_cons t (bs ++ u :: (es ++ rest))
  obtain ⟨bindings, hbindings, rfl⟩ := hbs hbs' hu hlt
  refine ⟨.letIn bindings b ⟨t.span.start, b.span.stop⟩, returns_parse.2 (.inl ⟨ht, ?_⟩),
    by simp⟩
  refine returns_parseLet.2 ⟨t.span, bs ++ u :: (es ++ rest), ?_, hlt, bindings, _, hbindings,
    by simpa using hne, u.span, es ++ rest, ?_, b, hb, rfl⟩
  · exact returns_expectKeyword.2 ⟨t, by simp, ht, rfl⟩
  · exact returns_expectKeyword.2 ⟨u, rfl, hu, rfl⟩

theorem complete_lambda {names : List String} (hnames : names.Nodup)
    (hbody : Expr.Completes es body) :
    Expr.Completes
      (.mark .openParen :: nameTokens names ++ .mark .closeParen :: .mark .arrow :: es)
      (.lambda (names.map .of) body .nowhere) := by
  intro ts rest hts hrest
  obtain ⟨t, ts, rfl, ht, h⟩ := List.map_eq_cons_iff.1 hts
  obtain ⟨e', he', heq⟩ := complete_parseParen_lambda t.span.start names hnames hbody h hrest
  refine ⟨e', returns_parse.2 (.inr ⟨by simp [ht], e', rest, ?_⟩), heq⟩
  have hprimary : (Expr.parsePrimary (t :: (ts ++ rest))).Returns e' rest :=
    returns_parsePrimary.2 (by simp [ht, he'])
  exact ⟨hprimary.lighter, hprimary, (returns_parsePostfix_of_stops hrest.stops).2 ⟨rfl, rfl⟩⟩

theorem complete_chain {ps : List Token} (hp : Primary ps p) (ho : Operators p os e)
    (hps : Expr.CompletesPrimary ps p) (hos : Expr.CompletesFrom p os e) :
    Expr.Completes (ps ++ os) e := by
  intro ts rest hts hrest
  obtain ⟨ps, os, rfl, hps', hos'⟩ := List.map_eq_append_iff.1 hts
  obtain ⟨t, us, hus, -, ht⟩ := hp.head
  obtain ⟨t, ps, rfl, rfl, rfl⟩ := List.map_eq_cons_iff.1 (hps'.trans hus)
  have harrow := beginsWith_arrow_eq_false ho hos' hrest
  obtain ⟨p', hp', hpeq⟩ := hps (os ++ rest) hps' harrow
  obtain ⟨e', he', heq⟩ := hos hos' hrest p' hp'.lighter hpeq
  refine ⟨e', ?_, heq⟩
  rw [List.append_assoc]
  exact returns_parse.2 (.inr ⟨ht, p', os ++ rest, hp'.lighter, hp', he'⟩)

theorem complete_string {parts : List StringPart} {segments : List Segment}
    (h : ∃ ss, Segment.parseAll parts = .ok ss ∧ ss.map Segment.unplaced = segments) :
    Expr.CompletesPrimary [.string parts] (.template segments .nowhere) := by
  intro ts rest hts _
  obtain ⟨t, _, rfl, ht, hnil⟩ := List.map_eq_cons_iff.1 hts
  obtain rfl := List.map_eq_nil_iff.1 hnil
  obtain ⟨ss, hss, rfl⟩ := h
  exact ⟨.template ss t.span, returns_parsePrimary.2
    (.inr (.inl ⟨_, ss, ht, hss, rfl, rfl⟩)), by simp⟩

theorem complete_list {items : List Expr} (ha : Expr.CompletesAll as items) :
    Expr.CompletesPrimary (.mark .openBracket :: as ++ [.mark .closeBracket])
      (.list items .nowhere) := by
  intro ts rest hts _
  obtain ⟨t, _, rfl, ht, h⟩ := List.map_eq_cons_iff.1 hts
  obtain ⟨as, _, rfl, has, h⟩ := List.map_eq_append_iff.1 h
  obtain ⟨u, _, rfl, hu, h⟩ := List.map_eq_cons_iff.1 h
  obtain rfl := List.map_eq_nil_iff.1 h
  obtain ⟨items, stop, hitems, rfl⟩ := ha rest has (.inl rfl) hu
  have hlist : (Expr.parseList (t :: (as ++ [u]) ++ rest)).Returns
      (.list items ⟨t.span.start, stop⟩) rest := returns_parseList.2
    ⟨t.span, as ++ u :: rest, returns_expectMark.2 ⟨t, by simp, ht, rfl⟩, items, stop, hitems,
      rfl⟩
  exact ⟨_, returns_parsePrimary.2 (.inr (.inr (.inr (.inl ⟨ht, hlist⟩)))), by simp⟩

theorem complete_map {entries : List Entry} (he : Entry.CompletesAll es entries) :
    Expr.CompletesPrimary (.mark .openBrace :: es ++ [.mark .closeBrace])
      (.map entries .nowhere) := by
  intro ts rest hts _
  obtain ⟨t, _, rfl, ht, h⟩ := List.map_eq_cons_iff.1 hts
  obtain ⟨es, _, rfl, hes, h⟩ := List.map_eq_append_iff.1 h
  obtain ⟨u, _, rfl, hu, h⟩ := List.map_eq_cons_iff.1 h
  obtain rfl := List.map_eq_nil_iff.1 h
  obtain ⟨entries, stop, hentries, rfl⟩ := he rest hes hu
  have hmap : (Expr.parseMap (t :: (es ++ [u]) ++ rest)).Returns
      (.map entries ⟨t.span.start, stop⟩) rest := returns_parseMap.2
    ⟨t.span, es ++ u :: rest, returns_expectMark.2 ⟨t, by simp, ht, rfl⟩, entries, stop,
      hentries, rfl⟩
  exact ⟨_, returns_parsePrimary.2 (.inr (.inr (.inl ⟨ht, hmap⟩))), by simp⟩

theorem complete_group (he : Expression us e) (hcomplete : Expr.Completes us e) :
    Expr.CompletesPrimary (.mark .openParen :: us ++ [.mark .closeParen]) e := by
  intro ts rest hts harrow
  obtain ⟨t, _, rfl, ht, h⟩ := List.map_eq_cons_iff.1 hts
  obtain ⟨es, _, rfl, hes, h⟩ := List.map_eq_append_iff.1 h
  obtain ⟨u, _, rfl, hu, h⟩ := List.map_eq_cons_iff.1 h
  obtain rfl := List.map_eq_nil_iff.1 h
  obtain ⟨e', he', heq⟩ :=
    complete_parseParen_group t.span.start he hcomplete hes hu harrow
  rw [show es ++ u :: rest = es ++ [u] ++ rest by simp] at he'
  exact ⟨e', returns_parsePrimary.2 (.inr (.inr (.inr (.inr ⟨ht, he'⟩)))), heq⟩

theorem completesFrom_nil (e : Expr) : Expr.CompletesFrom e [] e := by
  intro ts rest hts hrest n q h hq
  obtain rfl := List.map_eq_nil_iff.1 hts
  exact ⟨q, (returns_parsePostfix_of_stops hrest.stops).2 ⟨rfl, rfl⟩, hq⟩

theorem complete_member (hne : os.head? ≠ some (.mark .openParen))
    (ho : Expr.CompletesFrom (.member p (.of name) .nowhere) os e) :
    Expr.CompletesFrom p (.mark .dot :: .ident name :: os) e := by
  intro ts rest hts hrest n q hn hq
  obtain ⟨t, _, rfl, ht, h⟩ := List.map_eq_cons_iff.1 hts
  obtain ⟨u, os, rfl, hu, h⟩ := List.map_eq_cons_iff.1 h
  have hlt : Spanned.weightAll (os ++ rest) < n :=
    Nat.lt_trans (Spanned.weightAll_lt_cons u _) (Nat.lt_trans (Spanned.weightAll_lt_cons t _) hn)
  obtain ⟨e', he', heq⟩ := ho h hrest
    (.member q ⟨name, u.span⟩ ⟨q.span.start, u.span.stop⟩) hlt (by simp [hq])
  have hparen := beginsWith_openParen_eq_false hne h hrest
  refine ⟨e', returns_parsePostfix.2 ?_, heq⟩
  simp only [ht]
  refine ⟨⟨name, u.span⟩, os ++ rest, returns_expectName.2 ⟨u, rfl, hu, rfl⟩, ?_⟩
  rw [if_neg (by simp [hparen])]
  exact ⟨hlt, he'⟩

theorem complete_method (ha : Expr.CompletesAll as arguments)
    (ho : Expr.CompletesFrom (.method p (.of name) arguments .nowhere) os e) :
    Expr.CompletesFrom p
      (.mark .dot :: .ident name :: .mark .openParen :: as ++ .mark .closeParen :: os) e := by
  intro ts rest hts hrest n q hn hq
  obtain ⟨t, _, rfl, ht, h⟩ := List.map_eq_cons_iff.1 hts
  obtain ⟨u, _, rfl, hu, h⟩ := List.map_eq_cons_iff.1 h
  obtain ⟨v, _, rfl, hv, h⟩ := List.map_eq_cons_iff.1 h
  obtain ⟨as, _, rfl, has, h⟩ := List.map_eq_append_iff.1 h
  obtain ⟨c, os, rfl, hc, h⟩ := List.map_eq_cons_iff.1 h
  obtain ⟨items, stop, hitems, hargs⟩ := ha (os ++ rest) has (.inr rfl) hc
  have hsplit : t :: u :: v :: (as ++ c :: os) ++ rest =
      t :: u :: v :: (as ++ c :: (os ++ rest)) := by simp
  have hlt : Spanned.weightAll (os ++ rest) < n := by
    rw [hsplit] at hn
    exact Nat.lt_trans hitems.lighter (Nat.lt_trans (Spanned.weightAll_lt_cons v _)
      (Nat.lt_trans (Spanned.weightAll_lt_cons u _)
        (Nat.lt_trans (Spanned.weightAll_lt_cons t _) hn)))
  obtain ⟨e', he', heq⟩ := ho h hrest
    (.method q ⟨name, u.span⟩ items ⟨q.span.start, stop⟩) hlt (by simp [hq, hargs])
  refine ⟨e', ?_, heq⟩
  simp only [hsplit, returns_parsePostfix, ht]
  refine ⟨⟨name, u.span⟩, _, returns_expectName.2 ⟨u, rfl, hu, rfl⟩, ?_⟩
  rw [if_pos (by simp [beginsWith, hv, Token.isMark])]
  exact ⟨(items, stop), os ++ rest, hitems, hlt, he'⟩

theorem complete_index (hk : Expr.Completes ks key)
    (ho : Expr.CompletesFrom (.index p key .nowhere) os e) :
    Expr.CompletesFrom p (.mark .openBracket :: ks ++ .mark .closeBracket :: os) e := by
  intro ts rest hts hrest n q hn hq
  obtain ⟨t, _, rfl, ht, h⟩ := List.map_eq_cons_iff.1 hts
  obtain ⟨ks, _, rfl, hks, h⟩ := List.map_eq_append_iff.1 h
  obtain ⟨c, os, rfl, hc, h⟩ := List.map_eq_cons_iff.1 h
  obtain ⟨key, hkey, hkeyEq⟩ := hk (c :: (os ++ rest)) hks (.cons hc rfl nofun)
  have hsplit : t :: (ks ++ c :: os) ++ rest = t :: (ks ++ c :: (os ++ rest)) := by simp
  have hlt : Spanned.weightAll (os ++ rest) < n := by
    rw [hsplit] at hn
    exact Nat.lt_trans (Spanned.weightAll_lt_cons c _)
      (Nat.lt_trans hkey.lighter (Nat.lt_trans (Spanned.weightAll_lt_cons t _) hn))
  obtain ⟨e', he', heq⟩ := ho h hrest
    (.index q key ⟨q.span.start, c.span.stop⟩) hlt (by simp [hq, hkeyEq])
  refine ⟨e', ?_, heq⟩
  simp only [hsplit, returns_parsePostfix, ht]
  exact ⟨key, c :: (os ++ rest), hkey, c.span, os ++ rest,
    returns_expectMark.2 ⟨c, rfl, hc, rfl⟩, hlt, he'⟩

theorem complete_apply (ha : Expr.CompletesAll as arguments)
    (ho : Expr.CompletesFrom (.apply p arguments .nowhere) os e) :
    Expr.CompletesFrom p (.mark .openParen :: as ++ .mark .closeParen :: os) e := by
  intro ts rest hts hrest n q hn hq
  obtain ⟨t, _, rfl, ht, h⟩ := List.map_eq_cons_iff.1 hts
  obtain ⟨as, _, rfl, has, h⟩ := List.map_eq_append_iff.1 h
  obtain ⟨c, os, rfl, hc, h⟩ := List.map_eq_cons_iff.1 h
  obtain ⟨items, stop, hitems, hargs⟩ := ha (os ++ rest) has (.inr rfl) hc
  have hsplit : t :: (as ++ c :: os) ++ rest = t :: (as ++ c :: (os ++ rest)) := by simp
  have hlt : Spanned.weightAll (os ++ rest) < n := by
    rw [hsplit] at hn
    exact Nat.lt_trans hitems.lighter (Nat.lt_trans (Spanned.weightAll_lt_cons t _) hn)
  obtain ⟨e', he', heq⟩ := ho h hrest
    (.apply q items ⟨q.span.start, stop⟩) hlt (by simp [hq, hargs])
  refine ⟨e', ?_, heq⟩
  simp only [hsplit, returns_parsePostfix, ht]
  exact ⟨(items, stop), os ++ rest, hitems, hlt, he'⟩

theorem completesAll_nil : Expr.CompletesAll [] [] := by
  intro ts rest t close hts _ ht
  obtain rfl := List.map_eq_nil_iff.1 hts
  refine ⟨[], t.span.stop, returns_parseSequence.2 ?_, rfl⟩
  rw [if_pos (Token.isMark_iff.2 ht)]
  exact ⟨rfl, rfl⟩

theorem complete_last (he : Expression us e) (hcomplete : Expr.Completes us e) :
    Expr.CompletesAll us [e] := by
  intro ts rest t close hts hclose ht
  obtain ⟨e', he', heq⟩ := hcomplete (t :: rest) hts (follows_close hclose ht)
  obtain ⟨u, ts, rfl, hu⟩ := exists_cons_of_expression he hts hclose
  refine ⟨[e'], t.span.stop, returns_parseSequence.2 ?_, by simp [heq]⟩
  rw [if_neg (by simp [hu])]
  refine ⟨e', t :: rest, he', ?_⟩
  dsimp only
  rw [if_neg (by rcases hclose with rfl | rfl <;> simp [ht, Token.isMark]),
    if_pos (Token.isMark_iff.2 ht)]
  exact ⟨rfl, rfl⟩

theorem complete_argument (he : Expression us e) (hcomplete : Expr.Completes us e)
    (ha : Expr.CompletesAll as arguments) :
    Expr.CompletesAll (us ++ .mark .comma :: as) (e :: arguments) := by
  intro ts rest t close hts hclose ht
  obtain ⟨us, _, rfl, hus, h⟩ := List.map_eq_append_iff.1 hts
  obtain ⟨c, vs, rfl, hc, h⟩ := List.map_eq_cons_iff.1 h
  obtain ⟨e', he', heq⟩ := hcomplete (c :: (vs ++ t :: rest)) hus (.cons hc rfl nofun)
  obtain ⟨items, stop, hitems, hargs⟩ := ha rest h hclose ht
  obtain ⟨u, us, rfl, hu⟩ := exists_cons_of_expression he hus hclose
  have hsplit : u :: us ++ c :: vs ++ t :: rest = u :: (us ++ c :: (vs ++ t :: rest)) := by simp
  refine ⟨e' :: items, stop, ?_, by simp [heq, hargs]⟩
  rw [hsplit, returns_parseSequence, if_neg (by simp [hu])]
  refine ⟨e', _, he', ?_⟩
  dsimp only
  rw [if_pos (Token.isMark_iff.2 hc)]
  exact ⟨items, hitems, rfl⟩

theorem Binding.completesAll_nil : Binding.CompletesAll [] [] := by
  intro ts rest t hts ht n h
  obtain rfl := List.map_eq_nil_iff.1 hts
  refine ⟨[], returns_parseAll_bindings.2 ?_, rfl⟩
  simp [ht]

theorem complete_binding {bindings : List Binding} (hbs : Bindings bs bindings)
    (he : Expr.Completes us e) (hothers : Binding.CompletesAll bs bindings) :
    Binding.CompletesAll (.ident name :: .mark .equals :: us ++ bs)
      (⟨.of name, e⟩ :: bindings) := by
  intro ts rest t hts ht n hn
  obtain ⟨u, _, rfl, hu, h⟩ := List.map_eq_cons_iff.1 hts
  obtain ⟨c, _, rfl, hc, h⟩ := List.map_eq_cons_iff.1 h
  obtain ⟨es, bs, rfl, hes, h⟩ := List.map_eq_append_iff.1 h
  obtain ⟨e', he', heq⟩ := he (bs ++ t :: rest) hes (follows_bindings hbs h ht)
  have hsplit : u :: c :: (es ++ bs) ++ t :: rest = u :: c :: (es ++ (bs ++ t :: rest)) := by simp
  have hlt : Spanned.weightAll (bs ++ t :: rest) < n := by
    rw [hsplit] at hn
    exact Nat.lt_trans he'.lighter (Nat.lt_trans (Spanned.weightAll_lt_cons c _)
      (Nat.lt_trans (Spanned.weightAll_lt_cons u _) hn))
  obtain ⟨bindings, hbindings, hbeq⟩ := hothers h ht hlt
  refine ⟨⟨⟨name, u.span⟩, e'⟩ :: bindings, ?_, by simp [heq, hbeq]⟩
  simp only [hsplit, returns_parseAll_bindings, hu]
  exact ⟨c.span, _, returns_expectMark.2 ⟨c, rfl, hc, rfl⟩, e', _, he', hlt, bindings, hbindings,
    rfl⟩

theorem Entry.completesAll_nil : Entry.CompletesAll [] [] := by
  intro ts rest t hts ht
  obtain rfl := List.map_eq_nil_iff.1 hts
  refine ⟨[], t.span.stop, returns_parseAll_entries.2 ?_, rfl⟩
  rw [if_pos (Token.isMark_iff.2 ht)]
  exact ⟨rfl, rfl⟩

theorem complete_entry {a : Token} {k : Name} {comma : List Token} {entries : List Entry}
    (hk : Key a k) (hc : Separator comma) (hes : Entries es entries) (he : Expr.Completes us e)
    (hothers : Entry.CompletesAll es entries) :
    Entry.CompletesAll (a :: .mark .colon :: us ++ comma ++ es) (⟨k, e⟩ :: entries) := by
  intro ts rest t hts ht
  obtain ⟨_, us, rfl, h, hus⟩ := List.map_eq_append_iff.1 hts
  obtain ⟨_, comma, rfl, h, hcomma⟩ := List.map_eq_append_iff.1 h
  obtain ⟨u, _, rfl, hu, h⟩ := List.map_eq_cons_iff.1 h
  obtain ⟨c, vs, rfl, hcolon, hvs⟩ := List.map_eq_cons_iff.1 h
  obtain ⟨key, hkey, hkeyEq⟩ :=
    complete_parseKey (hu ▸ hk) (c :: (vs ++ (comma ++ (us ++ t :: rest))))
  obtain ⟨hfollows, hskip⟩ := follows_entries hc hes hcomma hus ht
  obtain ⟨e', he', heq⟩ := he _ hvs hfollows
  obtain ⟨entries, stop, hentries, hentriesEq⟩ := hothers rest hus ht
  refine ⟨⟨key, e'⟩ :: entries, stop, ?_, by simp [heq, hentriesEq, hkeyEq]⟩
  have hsplit : u :: c :: vs ++ comma ++ us ++ t :: rest =
      u :: c :: (vs ++ (comma ++ (us ++ t :: rest))) := by simp
  have hopen : u.token.isMark .closeBrace ≠ true := by
    rw [ne_eq, Token.isMark_iff, hu]
    rcases hk.eq_ident_or_string with ⟨_, rfl⟩ | ⟨_, rfl⟩
    · exact nofun
    · exact nofun
  rw [hsplit, returns_parseAll_entries, if_neg hopen]
  refine ⟨key, hkey, c.span, _, returns_expectMark.2 ⟨c, rfl, hcolon, rfl⟩, e', _, he', entries,
    ?_, rfl⟩
  rw [hskip]
  exact hentries

/-- Code in a string is taken whole, up to its end mark. -/
theorem complete_code {tokens : List Spanned} {parts : List StringPart} {ss : List Segment}
    (ht : tokens.map (·.token) = us ++ [.eof]) (hus : .comment ∉ us) (he : Expr.Completes us e)
    (hothers : ∃ segments, Segment.parseAll parts = .ok segments ∧
      segments.map Segment.unplaced = ss) :
    ∃ segments, Segment.parseAll (.code tokens :: parts) = .ok segments ∧
      segments.map Segment.unplaced = .code e :: ss := by
  obtain ⟨segments, h, rfl⟩ := hothers
  have hkept : Program.withoutComments tokens = tokens :=
    Program.withoutComments_eq_self (by simp [ht, hus])
  obtain ⟨us, _, rfl, hus, h'⟩ := List.map_eq_append_iff.1 ht
  obtain ⟨z, _, rfl, hz, h'⟩ := List.map_eq_cons_iff.1 h'
  obtain rfl := List.map_eq_nil_iff.1 h'
  obtain ⟨e', he', heq⟩ := he [z] hus (.cons hz rfl nofun)
  rw [← hkept] at he'
  exact ⟨_, parseAll_segments_code.2 ⟨e', [z], z.span, [], segments, he',
    returns_expectEof.2 ⟨z, rfl, hz, rfl⟩, h, rfl⟩, by simp [heq]⟩

end

/-! ## All rules -/

mutual

theorem complete_expression : ∀ {us : List Token} {e : Expr}, Expression us e →
    Expr.Completes us e
  | _, _, .letIn hne hbs he => complete_letIn hne (complete_bindings hbs) (complete_expression he)
  | _, _, .lambda _ hnames he => complete_lambda hnames (complete_expression he)
  | _, _, .chain hp ho => complete_chain hp ho (complete_primary hp) (complete_operators ho)

theorem complete_primary : ∀ {us : List Token} {p : Expr}, Primary us p →
    Expr.CompletesPrimary us p
  | _, _, .int v =>
    complete_atom fun t ht => ⟨.int v t.span, by simp [Spanned.atom?, ht], rfl⟩
  | _, _, .float v =>
    complete_atom fun t ht => ⟨.float v t.span, by simp [Spanned.atom?, ht], rfl⟩
  | _, _, .trueWord =>
    complete_atom fun t ht => ⟨.bool true t.span, by simp [Spanned.atom?, ht], rfl⟩
  | _, _, .falseWord =>
    complete_atom fun t ht => ⟨.bool false t.span, by simp [Spanned.atom?, ht], rfl⟩
  | _, _, .name text =>
    complete_atom fun t ht => ⟨.name ⟨text, t.span⟩, by simp [Spanned.atom?, ht], rfl⟩
  | _, _, .string _ hs => complete_string (complete_segments hs)
  | _, _, .list ha => complete_list (complete_arguments ha)
  | _, _, .map he => complete_map (complete_entries he)
  | _, _, .group he => complete_group he (complete_expression he)

theorem complete_operators : ∀ {us : List Token} {p e : Expr}, Operators p us e →
    Expr.CompletesFrom p us e
  | _, _, _, .none e => completesFrom_nil e
  | _, _, _, .member _ hne ho => complete_member hne (complete_operators ho)
  | _, _, _, .method _ ha ho => complete_method (complete_arguments ha) (complete_operators ho)
  | _, _, _, .index hk ho => complete_index (complete_expression hk) (complete_operators ho)
  | _, _, _, .apply ha ho => complete_apply (complete_arguments ha) (complete_operators ho)

theorem complete_arguments : ∀ {us : List Token} {es : List Expr}, Arguments us es →
    Expr.CompletesAll us es
  | _, _, .none => completesAll_nil
  | _, _, .last he => complete_last he (complete_expression he)
  | _, _, .more he ha => complete_argument he (complete_expression he) (complete_arguments ha)

theorem complete_bindings : ∀ {us : List Token} {bs : List Binding}, Bindings us bs →
    Binding.CompletesAll us bs
  | _, _, .none => Binding.completesAll_nil
  | _, _, .more _ he hbs =>
    complete_binding hbs (complete_expression he) (complete_bindings hbs)

theorem complete_entries : ∀ {us : List Token} {es : List Entry}, Entries us es →
    Entry.CompletesAll us es
  | _, _, .none => Entry.completesAll_nil
  | _, _, .more hk he hc hes =>
    complete_entry hk hc hes (complete_expression he) (complete_entries hes)

theorem complete_segments : ∀ {ps : List StringPart} {ss : List Segment}, Segments ps ss →
    ∃ segments, Segment.parseAll ps = .ok segments ∧ segments.map Segment.unplaced = ss
  | _, _, .none => ⟨[], by rw [Segment.parseAll], rfl⟩
  | _, _, .text hs => by
    obtain ⟨segments, h, hss⟩ := complete_segments hs
    exact ⟨_, parseAll_segments_text.2 ⟨segments, h, rfl⟩, by simp [hss]⟩
  | _, _, .code ht he hs =>
    complete_code ht he.comment_notMem (complete_expression he) (complete_segments hs)

end

theorem Grammar.Expression.unique {us : List Token} {e e' : Expr} (h : Expression us e)
    (h' : Expression us e') : e = e' := by
  have hts : (us.map fun t => (⟨t, .nowhere⟩ : Spanned)).map (·.token) = us := by
    simp [Function.comp_def]
  have hrest : Follows [⟨.eof, .nowhere⟩] := .cons rfl rfl nofun
  obtain ⟨p, hp, rfl⟩ := complete_expression h _ hts hrest
  obtain ⟨q, hq, rfl⟩ := complete_expression h' _ hts hrest
  rw [hp.unique hq]

end ConfigExpr
