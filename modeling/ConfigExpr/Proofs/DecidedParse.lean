import ConfigExpr.Proofs.Decided

/-!
# Every rule is decided by what it reads

The rules of the grammar, without the bounds that their outcomes carry, are put together from one
another and from the rules for single tokens. So what an expression is read as, or why it is not
one, is decided by the tokens up to the one where its rule stops (`decided_exprRule`).
-/

namespace ConfigExpr

variable {n : Nat} {t : Spanned} {ts : List Spanned}

/-! ## The rules put together -/

def exprRule : Rule Expr :=
  fun ts => (Expr.parse ts).result

def sequenceRule (close : Mark) : Rule (List Expr × Nat) :=
  fun ts => (Expr.parseSequence close ts).result

/-- What follows an item of a sequence. -/
def sequenceAfter (close : Mark) (item : Expr) : Rule (List Expr × Nat)
  | [] => .error .exhausted
  | u :: left =>
    if u.token.isMark .comma then
      (sequenceRule close).andThen (fun r => .give (item :: r.1, r.2)) left
    else if u.token.isMark close then .ok (([item], u.span.stop), left)
    else .error (.unexpected u left [.mark .comma, .mark close])

theorem sequenceRule_cons (close : Mark) :
    sequenceRule close (t :: ts) =
      if t.token.isMark close then .ok (([], t.span.stop), ts)
      else exprRule.andThen (sequenceAfter close) (t :: ts) := by
  rw [sequenceRule, Expr.parseSequence, apply_ite Outcome.result, Rule.andThen, exprRule]
  cases Expr.parse (t :: ts) with
  | error f => rfl
  | ok item left lighter =>
    cases left with
    | nil => rfl
    | cons u left =>
      dsimp only
      rw [apply_ite Outcome.result, apply_ite Outcome.result, Outcome.result_weaken,
        Outcome.result_map _ (rfl : _ = sequenceRule close left)]
      rfl

def bindingsRule : Rule (List Binding) :=
  fun ts => (Binding.parseAll ts (Nat.lt_succ_self _)).result

/-- The bound given to the bindings does not matter. -/
theorem result_parseAll_bindings : ∀ {n : Nat} (ts : List Spanned)
    (h : Spanned.weightAll ts < n), (Binding.parseAll ts h).result = bindingsRule ts
  | _, [], _ => by
    rw [bindingsRule, Binding.parseAll, Binding.parseAll]
    rfl
  | _, t :: rest, _ => by
    rw [bindingsRule, Binding.parseAll, Binding.parseAll]
    cases t.token with
    | ident text =>
      dsimp only
      cases expectMark .equals rest with
      | error f => rfl
      | ok s afterEquals h₁ =>
        dsimp only
        cases Expr.parse afterEquals with
        | error f => rfl
        | ok value left h₂ =>
          have hlt := Nat.lt_trans (Nat.lt_trans h₂ h₁) (t.weightAll_lt_cons rest)
          dsimp only
          exact (Outcome.result_map _ (result_parseAll_bindings left _)).trans
            (Outcome.result_map _ (result_parseAll_bindings left _)).symm
    | _ => rfl
termination_by _ ts => Spanned.weightAll ts

theorem bindingsRule_ident {text : String} (ht : t.token = .ident text) :
    bindingsRule (t :: ts) = (markRule .equals).andThen (fun _ => exprRule.andThen fun value =>
      bindingsRule.andThen fun others => .give (⟨⟨text, t.span⟩, value⟩ :: others)) ts := by
  rw [bindingsRule, Binding.parseAll, ht, Rule.andThen, markRule]
  cases expectMark .equals ts with
  | error f => rfl
  | ok s afterEquals h₁ =>
    dsimp only [Outcome.result]
    rw [Rule.andThen, exprRule]
    cases Expr.parse afterEquals with
    | error f => rfl
    | ok value left h₂ => exact Outcome.result_map _ (result_parseAll_bindings left _)

theorem bindingsRule_other (ht : ∀ text, t.token ≠ .ident text) :
    bindingsRule (t :: ts) = .ok ([], t :: ts) := by
  rw [bindingsRule, Binding.parseAll]
  split
  next text h => exact absurd h (ht text)
  next => rfl

def letRule : Rule Expr :=
  fun ts => (Expr.parseLet ts).result

/-- What follows the bindings of a let block. -/
def letAfter (word : Span) : List Binding → Rule Expr
  | [] => fun left => .error (.stop .expectedBinding
      (match left.head? with | some t => t.span | none => .point word.stop) left)
  | b :: bs => (keywordRule .inWord).andThen fun _ => exprRule.andThen fun body =>
      .give (.letIn (b :: bs) body ⟨word.start, body.span.stop⟩)

theorem letRule_eq :
    letRule = (keywordRule .letWord).andThen fun word => bindingsRule.andThen (letAfter word) := by
  funext ts
  rw [letRule, Expr.parseLet, Rule.andThen, keywordRule]
  cases expectKeyword .letWord ts with
  | error f => rfl
  | ok word afterWord h =>
    dsimp only [Outcome.result]
    rw [Rule.andThen, ← result_parseAll_bindings afterWord h]
    cases Binding.parseAll afterWord h with
    | error f => rfl
    | ok bindings left h₁ =>
      cases bindings with
      | nil => rfl
      | cons b bs =>
        dsimp only [Outcome.result]
        rw [letAfter, Rule.andThen, keywordRule]
        cases expectKeyword .inWord left with
        | error f => rfl
        | ok s afterIn h₂ =>
          dsimp only
          exact (Outcome.result_weaken _ _).trans (Outcome.result_map _ rfl)

def lambdaRule (start : Nat) (names : List Name) : Rule Expr :=
  fun ts => (Expr.parseLambda start names ts).result

theorem lambdaRule_repeated {start : Nat} {names : List Name} {name : Name}
    (h : Name.repeated? [] names = some name) :
    lambdaRule start names ts = .error (.stop (.duplicateParameter name.text) name.span ts) := by
  rw [lambdaRule, Expr.parseLambda, h]
  rfl

theorem lambdaRule_eq {start : Nat} {names : List Name} (h : Name.repeated? [] names = none) :
    lambdaRule start names = (markRule .arrow).andThen fun _ => exprRule.andThen fun body =>
      .give (.lambda names body ⟨start, body.span.stop⟩) := by
  funext ts
  rw [lambdaRule, Expr.parseLambda, h, Rule.andThen, markRule]
  cases expectMark .arrow ts with
  | error f => rfl
  | ok s left h₁ => exact (Outcome.result_weaken _ _).trans (Outcome.result_map _ rfl)

def postfixRule (e : Expr) : Rule Expr :=
  fun ts => (Expr.parsePostfix e ts (Nat.lt_succ_self _)).result

/-- The bound given to the operators does not matter. -/
theorem result_parsePostfix : ∀ {n : Nat} (e : Expr) (ts : List Spanned)
    (h : Spanned.weightAll ts < n), (Expr.parsePostfix e ts h).result = postfixRule e ts
  | _, e, [], _ => by
    rw [postfixRule, Expr.parsePostfix, Expr.parsePostfix]
    rfl
  | _, e, t :: rest, _ => by
    have ht := t.weightAll_lt_cons rest
    rw [postfixRule, Expr.parsePostfix, Expr.parsePostfix]
    cases t.token with
    | mark mark =>
      cases mark with
      | dot =>
        dsimp only
        cases expectName rest with
        | error f => rfl
        | ok name afterName h₁ =>
          have hname := Nat.lt_trans h₁ ht
          cases afterName with
          | nil => rfl
          | cons u afterName =>
            dsimp only
            split
            · cases Expr.parseSequence .closeParen afterName with
              | error f => rfl
              | ok r left h₂ =>
                have := Nat.lt_trans (Nat.lt_trans h₂ (u.weightAll_lt_cons afterName)) hname
                exact (result_parsePostfix _ left _).trans (result_parsePostfix _ left _).symm
            · exact (result_parsePostfix _ (u :: afterName) _).trans
                (result_parsePostfix _ (u :: afterName) _).symm
      | openBracket =>
        dsimp only
        cases Expr.parse rest with
        | error f => rfl
        | ok key afterKey h₁ =>
          dsimp only
          cases expectMark .closeBracket afterKey with
          | error f => rfl
          | ok close left h₂ =>
            have := Nat.lt_trans (Nat.lt_trans h₂ h₁) ht
            exact (result_parsePostfix _ left _).trans (result_parsePostfix _ left _).symm
      | openParen =>
        dsimp only
        cases Expr.parseSequence .closeParen rest with
        | error f => rfl
        | ok r left h₁ =>
          have := Nat.lt_trans h₁ ht
          exact (result_parsePostfix _ left _).trans (result_parsePostfix _ left _).symm
      | _ => rfl
    | _ => rfl
termination_by _ _ ts => Spanned.weightAll ts

/-- What follows the name of a member. -/
def nameAfter (e : Expr) (name : Name) : Rule Expr
  | [] => postfixRule (.member e name ⟨e.span.start, name.span.stop⟩) []
  | u :: left =>
    if u.token.isMark .openParen then
      (sequenceRule .closeParen).andThen
        (fun r => postfixRule (.method e name r.1 ⟨e.span.start, r.2⟩)) left
    else postfixRule (.member e name ⟨e.span.start, name.span.stop⟩) (u :: left)

theorem postfixRule_nil (e : Expr) : postfixRule e [] = .ok (e, []) := by
  rw [postfixRule, Expr.parsePostfix]
  rfl

theorem postfixRule_dot (e : Expr) (ht : t.token = .mark .dot) :
    postfixRule e (t :: ts) = nameRule.andThen (nameAfter e) ts := by
  rw [postfixRule, Expr.parsePostfix, ht, Rule.andThen, nameRule]
  dsimp only
  cases expectName ts with
  | error f => rfl
  | ok name afterName h₁ =>
    cases afterName with
    | nil => exact (postfixRule_nil _).symm
    | cons u left =>
      dsimp only [Outcome.result, nameAfter]
      by_cases hu : u.token.isMark .openParen = true
      · rw [if_pos hu, if_pos hu, Rule.andThen, sequenceRule]
        cases Expr.parseSequence .closeParen left with
        | error f => rfl
        | ok r left h₂ => exact result_parsePostfix _ left _
      · rw [if_neg hu, if_neg hu]
        exact result_parsePostfix _ (u :: left) _

theorem postfixRule_openBracket (e : Expr) (ht : t.token = .mark .openBracket) :
    postfixRule e (t :: ts) = exprRule.andThen (fun key => (markRule .closeBracket).andThen
      fun close => postfixRule (.index e key ⟨e.span.start, close.stop⟩)) ts := by
  rw [postfixRule, Expr.parsePostfix, ht, Rule.andThen, exprRule]
  dsimp only
  cases Expr.parse ts with
  | error f => rfl
  | ok key afterKey h₁ =>
    dsimp only [Outcome.result]
    rw [Rule.andThen, markRule]
    cases expectMark .closeBracket afterKey with
    | error f => rfl
    | ok close left h₂ => exact result_parsePostfix _ left _

theorem postfixRule_openParen (e : Expr) (ht : t.token = .mark .openParen) :
    postfixRule e (t :: ts) = (sequenceRule .closeParen).andThen
      (fun r => postfixRule (.apply e r.1 ⟨e.span.start, r.2⟩)) ts := by
  rw [postfixRule, Expr.parsePostfix, ht, Rule.andThen, sequenceRule]
  dsimp only
  cases Expr.parseSequence .closeParen ts with
  | error f => rfl
  | ok r left h₁ => exact result_parsePostfix _ left _

theorem postfixRule_other (e : Expr) (hdot : t.token ≠ .mark .dot)
    (hbracket : t.token ≠ .mark .openBracket) (hparen : t.token ≠ .mark .openParen) :
    postfixRule e (t :: ts) = .ok (e, t :: ts) := by
  rw [postfixRule, Expr.parsePostfix]
  split
  next h => exact absurd h hdot
  next h => exact absurd h hbracket
  next h => exact absurd h hparen
  next => rfl

def primaryRule : Rule Expr :=
  fun ts => (Expr.parsePrimary ts).result

theorem exprRule_nil : exprRule [] = .error .exhausted := by
  rw [exprRule, Expr.parse]
  rfl

theorem exprRule_cons :
    exprRule (t :: ts) = if t.token.isKeyword .letWord then letRule (t :: ts)
      else primaryRule.andThen postfixRule (t :: ts) := by
  rw [exprRule, Expr.parse, apply_ite Outcome.result, Rule.andThen, primaryRule]
  cases Expr.parsePrimary (t :: ts) with
  | error f => rfl
  | ok e left h =>
    dsimp only
    rw [result_parsePostfix]
    rfl

/-- A list, after its opening bracket. -/
def listRule (start : Nat) : Rule Expr :=
  (sequenceRule .closeBracket).andThen fun r => .give (.list r.1 ⟨start, r.2⟩)

def entriesRule : Rule (List Entry × Nat) :=
  fun ts => (Entry.parseAll ts).result

/-- A map, after its opening brace. -/
def mapRule (start : Nat) : Rule Expr :=
  entriesRule.andThen fun r => .give (.map r.1 ⟨start, r.2⟩)

def parenRule (start : Nat) : Rule Expr :=
  fun ts => (Expr.parseParen start ts).result

theorem primaryRule_openBracket (ht : t.token = .mark .openBracket) :
    primaryRule (t :: ts) = listRule t.span.start ts := by
  obtain ⟨token, span⟩ := t
  cases ht
  rw [primaryRule, Expr.parsePrimary, Expr.parseList]
  exact (Outcome.result_weaken _ _).trans (Outcome.result_map _ rfl)

theorem primaryRule_openBrace (ht : t.token = .mark .openBrace) :
    primaryRule (t :: ts) = mapRule t.span.start ts := by
  obtain ⟨token, span⟩ := t
  cases ht
  rw [primaryRule, Expr.parsePrimary, Expr.parseMap]
  exact (Outcome.result_weaken _ _).trans (Outcome.result_map _ rfl)

theorem primaryRule_openParen (ht : t.token = .mark .openParen) :
    primaryRule (t :: ts) = parenRule t.span.start ts := by
  obtain ⟨token, span⟩ := t
  cases ht
  rw [primaryRule, Expr.parsePrimary]
  exact Outcome.result_weaken _ _

theorem primaryRule_atom {e : Expr} (ht : t.atom? = some e) :
    primaryRule (t :: ts) = .ok (e, ts) := by
  rw [primaryRule, Expr.parsePrimary]
  split <;> simp_all [Spanned.atom?, Outcome.result]

theorem primaryRule_string {parts : List StringPart} {segments : List Segment}
    (ht : t.token = .string parts) (hparts : Segment.parseAll parts = .ok segments) :
    primaryRule (t :: ts) = .ok (.template segments t.span, ts) := by
  obtain ⟨token, span⟩ := t
  cases ht
  simp [primaryRule, Expr.parsePrimary, hparts, Outcome.result]

theorem primaryRule_string_error {parts : List StringPart} {e : ParseError}
    (ht : t.token = .string parts) (hparts : Segment.parseAll parts = .error e) :
    primaryRule (t :: ts) = .error ⟨e, t :: ts, true⟩ := by
  obtain ⟨token, span⟩ := t
  cases ht
  simp [primaryRule, Expr.parsePrimary, hparts, Outcome.result]

theorem primaryRule_other (hatom : t.atom? = none) (hstring : ∀ parts, t.token ≠ .string parts)
    (hbrace : t.token ≠ .mark .openBrace) (hbracket : t.token ≠ .mark .openBracket)
    (hparen : t.token ≠ .mark .openParen) :
    primaryRule (t :: ts) = .error (.unexpected t ts [.expression]) := by
  rw [primaryRule, Expr.parsePrimary]
  split <;> simp_all [Spanned.atom?, Outcome.result]

/-- An entry of a map goes on after its key. -/
def entryAfter (key : Name) : Rule (List Entry × Nat) :=
  (markRule .colon).andThen fun _ => exprRule.andThen fun value left =>
    entriesRule.andThen (fun r => .give (⟨key, value⟩ :: r.1, r.2)) (skipComma left)

theorem entriesRule_nil : entriesRule [] = .error .exhausted := by
  rw [entriesRule, Entry.parseAll]
  rfl

theorem entriesRule_key {key : Name} (ht : ¬ t.token.isMark .closeBrace = true)
    (hkey : Name.parseKey t ts = .ok key) : entriesRule (t :: ts) = entryAfter key ts := by
  rw [entriesRule, Entry.parseAll, if_neg ht, hkey, entryAfter, Rule.andThen, markRule]
  dsimp only
  cases expectMark .colon ts with
  | error f => rfl
  | ok s afterColon h =>
    dsimp only [Outcome.result]
    rw [Rule.andThen, exprRule]
    cases Expr.parse afterColon with
    | error f => rfl
    | ok value left h₁ => exact (Outcome.result_weaken _ _).trans (Outcome.result_map _ rfl)

theorem entriesRule_fails {f : Failure} (ht : ¬ t.token.isMark .closeBrace = true)
    (hkey : Name.parseKey t ts = .error f) : entriesRule (t :: ts) = .error f := by
  rw [entriesRule, Entry.parseAll, if_neg ht, hkey]
  rfl

theorem entriesRule_close (ht : t.token.isMark .closeBrace = true) :
    entriesRule (t :: ts) = .ok (([], t.span.stop), ts) := by
  rw [entriesRule, Entry.parseAll, if_pos ht]
  rfl

/-- What follows a single name between parentheses. -/
def singleAfter (start : Nat) (name : Name) : Rule Expr := fun ts =>
  if beginsWith .arrow ts then lambdaRule start [name] ts else .ok (.name name, ts)

/-- What follows the first name after an opening parenthesis. -/
def parenNameAfter (start : Nat) (name : Name) : Rule Expr
  | [] => .error .exhausted
  | u :: us =>
    if u.token.isMark .comma then
      parametersRule.andThen (fun names => lambdaRule start (name :: names)) us
    else if u.token.isMark .closeParen then singleAfter start name us
    else
      (postfixRule (.name name)).andThen
        (fun e => (markRule .closeParen).andThen fun _ => .give e) (u :: us)

theorem parenRule_group {start : Nat} (hform : ParenForm.ofTokens ts = .group) :
    parenRule start ts =
      exprRule.andThen (fun e => (markRule .closeParen).andThen fun _ => .give e) ts := by
  rw [parenRule, Expr.parseParen, hform, Rule.andThen, exprRule]
  dsimp only
  cases Expr.parse ts with
  | error f => rfl
  | ok e left h => exact (Outcome.result_weaken _ _).trans (Outcome.result_map _ rfl)

theorem parenRule_noParameters {start : Nat} (hform : ParenForm.ofTokens ts = .noParameters) :
    parenRule start ts = (markRule .closeParen).andThen (fun _ => lambdaRule start []) ts := by
  rw [parenRule, Expr.parseParen, hform, Rule.andThen, markRule]
  dsimp only
  cases expectMark .closeParen ts with
  | error f => rfl
  | ok s left h => exact Outcome.result_weaken _ _

theorem parenRule_parameterList {start : Nat} (hform : ParenForm.ofTokens ts = .parameterList) :
    parenRule start ts = parametersRule.andThen (lambdaRule start) ts := by
  rw [parenRule, Expr.parseParen, hform, Rule.andThen, parametersRule]
  dsimp only
  cases parameters ts with
  | error f => rfl
  | ok names left h => exact Outcome.result_weaken _ _

theorem parenRule_singleName {start : Nat} (hform : ParenForm.ofTokens ts = .singleName) :
    parenRule start ts = nameRule.andThen
      (fun name => (markRule .closeParen).andThen fun _ => singleAfter start name) ts := by
  rw [parenRule, Expr.parseParen, hform, Rule.andThen, nameRule]
  dsimp only
  cases expectName ts with
  | error f => rfl
  | ok name afterName h =>
    dsimp only [Outcome.result]
    rw [Rule.andThen, markRule]
    cases expectMark .closeParen afterName with
    | error f => rfl
    | ok s left h₁ =>
      change Outcome.result _ = singleAfter start name left
      dsimp only
      rw [singleAfter, apply_ite Outcome.result, Outcome.result_weaken]
      rfl

theorem parenRule_ident {start : Nat} {text : String} (ht : t.token = .ident text) :
    parenRule start (t :: ts) = parenNameAfter start ⟨text, t.span⟩ ts := by
  have hname : nameRule (t :: ts) = .ok (⟨text, t.span⟩, ts) := by
    rw [nameRule, expectName, ht]
    rfl
  have hexpr : exprRule (t :: ts) = postfixRule (.name ⟨text, t.span⟩) ts := by
    have hatom : t.atom? = some (.name ⟨text, t.span⟩) := by
      rw [Spanned.atom?, ht]
    rw [exprRule_cons, ht, if_neg (by simp [Token.isKeyword])]
    exact Rule.andThen_ok (primaryRule_atom hatom)
  cases ts with
  | nil =>
    rw [parenRule_group (by simp [ParenForm.ofTokens, ht]), Rule.andThen, hexpr, postfixRule_nil]
    rfl
  | cons u us =>
    by_cases hcomma : u.token.isMark .comma = true
    · rw [parenRule_parameterList (by simp [ParenForm.ofTokens, ht, hcomma]), parametersRule_eq,
        Rule.andThen, Rule.andThen, hname]
      dsimp only
      rw [parametersAfter, if_pos hcomma, parenNameAfter, if_pos hcomma, Rule.andThen,
        Rule.andThen]
      cases parametersRule us <;> rfl
    · by_cases hclose : u.token.isMark .closeParen = true
      · have hmark : markRule .closeParen (u :: us) = .ok (u.span, us) :=
          congrArg Outcome.result (if_pos hclose)
        rw [parenRule_singleName (by simp [ParenForm.ofTokens, ht, hcomma, hclose]),
          parenNameAfter, if_neg hcomma, if_pos hclose, Rule.andThen_ok hname,
          Rule.andThen_ok hmark]
      · rw [parenRule_group (by simp [ParenForm.ofTokens, ht, hcomma, hclose]),
          parenNameAfter, if_neg hcomma, if_neg hclose, Rule.andThen, hexpr]
        rfl

/-- Whether a token is a key, and which one, does not depend on the tokens after it. -/
theorem decided_parseKey (t : Spanned) :
    (∃ key, ∀ rest, Name.parseKey t rest = .ok key) ∨
      ∃ e : ParseError, e.At t ∧
        ∀ rest, ∃ f, Name.parseKey t rest = .error f ∧ f.error = e ∧ f.rest = t :: rest := by
  obtain ⟨fault, hfault⟩ := Failure.unexpected_eq_stop t [.key, .mark .closeBrace]
  obtain ⟨token, span⟩ := t
  cases token with
  | ident text => exact .inl ⟨⟨text, span⟩, fun rest => by rw [Name.parseKey]⟩
  | string parts =>
    cases hparts : Segment.parseAll parts with
    | error e =>
      refine .inr ⟨e, .code rfl hparts, fun rest => ⟨⟨e, _, true⟩, ?_, rfl, rfl⟩⟩
      simp [Name.parseKey, hparts]
    | ok segments =>
      cases htext : Segment.plainText? segments with
      | some text =>
        refine .inl ⟨⟨text, span⟩, fun rest => ?_⟩
        simp [Name.parseKey, hparts, htext]
      | none =>
        have hat : ParseError.At ⟨.invalidKey, span⟩ ⟨.string parts, span⟩ := .token rfl
        refine .inr ⟨_, hat, fun rest => ⟨.stop .invalidKey span (_ :: rest), ?_, rfl, rfl⟩⟩
        simp [Name.parseKey, hparts, htext]
  | _ =>
    refine .inr ⟨⟨fault, span⟩, .token rfl, fun rest => ⟨.stop fault span (_ :: rest), ?_, rfl, rfl⟩⟩
    rw [← hfault]
    simp [Name.parseKey]

/-! ## Each rule is decided -/

section Rules

-- Expressions in fewer tokens are decided. A rule that calls itself goes by recursion on the weight
-- of its tokens, of which each step leaves less.
variable (ih : ∀ us : List Spanned, Spanned.weightAll us < n → Decided exprRule us)

include ih

theorem decided_sequenceRule (close : Mark) : ∀ us : List Spanned, Spanned.weightAll us < n →
    Decided (sequenceRule close) us
  | [], _ => .exhausted (by rw [sequenceRule, Expr.parseSequence]; rfl)
  | t :: rest, h => by
    by_cases hclose : t.token.isMark close = true
    · exact .single fun _ => (sequenceRule_cons close).trans (if_pos hclose)
    · refine .congr (fun _ => (sequenceRule_cons close).trans (if_neg hclose)) ?_
      refine (ih _ h).andThen fun item left hitem => ?_
      have hlt := Outcome.lighter_of_result hitem
      cases left with
      | nil => exact .exhausted rfl
      | cons u left =>
        have hleft := Nat.lt_trans (u.weightAll_lt_cons left) hlt
        by_cases hcomma : u.token.isMark .comma = true
        · exact .take (fun _ => if_pos hcomma)
            (.map (decided_sequenceRule close left (Nat.lt_trans hleft h)))
        · by_cases hclose : u.token.isMark close = true
          · exact .single fun _ => (if_neg hcomma).trans (if_pos hclose)
          · exact .unexpected fun _ => (if_neg hcomma).trans (if_neg hclose)
termination_by us => Spanned.weightAll us

theorem decided_bindingsRule : ∀ us : List Spanned, Spanned.weightAll us < n →
    Decided bindingsRule us
  | [], _ => .ended (by rw [bindingsRule, Binding.parseAll]; rfl)
  | t :: rest, h => by
    by_cases ht : ∃ text, t.token = .ident text
    · obtain ⟨text, ht⟩ := ht
      refine .take (fun _ => bindingsRule_ident ht) ?_
      refine (decided_markRule .equals rest).andThen fun s afterEquals hs => ?_
      have h₁ := Nat.lt_trans (Outcome.lighter_of_result hs) (t.weightAll_lt_cons rest)
      refine (ih _ (Nat.lt_trans h₁ h)).andThen fun value left hvalue => ?_
      have h₂ := Nat.lt_trans (Outcome.lighter_of_result hvalue) h₁
      exact .map (decided_bindingsRule left (Nat.lt_trans h₂ h))
    · exact .leave fun _ => bindingsRule_other fun text hident => ht ⟨text, hident⟩
termination_by us => Spanned.weightAll us

theorem decided_letAfter (word : Span) (bindings : List Binding) {us : List Spanned}
    (h : Spanned.weightAll us < n) : Decided (letAfter word bindings) us := by
  cases bindings with
  | nil =>
    cases us with
    | nil => exact .error rfl (List.nil_append []).symm nofun
    | cons u us =>
      have hat : ParseError.At ⟨.expectedBinding, u.span⟩ u := .token rfl
      exact .stop hat fun _ => ⟨_, rfl, rfl, rfl⟩
  | cons b bs =>
    refine (decided_keywordRule .inWord us).andThen fun s afterIn hs => ?_
    exact .map (ih _ (Nat.lt_trans (Outcome.lighter_of_result hs) h))

theorem decided_letRule (h : Spanned.weightAll ts ≤ n) : Decided letRule ts := by
  rw [letRule_eq]
  refine (decided_keywordRule .letWord ts).andThen fun word afterWord hword => ?_
  have hlt := Nat.lt_of_lt_of_le (Outcome.lighter_of_result hword) h
  refine (decided_bindingsRule ih afterWord hlt).andThen fun bindings left hbindings => ?_
  have hleft := Nat.le_of_lt_succ (Outcome.lighter_of_result hbindings)
  exact decided_letAfter ih word bindings (Nat.lt_of_le_of_lt hleft hlt)

theorem decided_lambdaRule (start : Nat) (names : List Name) {us : List Spanned}
    (h : Spanned.weightAll us < n) : Decided (lambdaRule start names) us := by
  cases hnames : Name.repeated? [] names with
  | some name =>
    refine .error (lambdaRule_repeated hnames) (List.nil_append us).symm fun l rest hl => ?_
    cases hl
    exact ⟨.repeated rfl, fun _ => ⟨_, lambdaRule_repeated hnames, rfl⟩⟩
  | none =>
    rw [lambdaRule_eq hnames]
    refine (decided_markRule .arrow us).andThen fun s left hs => ?_
    exact .map (ih _ (Nat.lt_trans (Outcome.lighter_of_result hs) h))

theorem decided_postfixRule (e : Expr) : ∀ us : List Spanned, Spanned.weightAll us < n →
    Decided (postfixRule e) us
  | [], _ => .ended (postfixRule_nil e)
  | t :: rest, h => by
    have ht := t.weightAll_lt_cons rest
    by_cases hdot : t.token = .mark .dot
    · refine .take (fun _ => postfixRule_dot e hdot) ?_
      refine (decided_nameRule rest).andThen fun name afterName hname => ?_
      have h₁ := Nat.lt_trans (Outcome.lighter_of_result hname) ht
      cases afterName with
      | nil => exact .ended (postfixRule_nil _)
      | cons u left =>
        have hu := Nat.lt_trans (u.weightAll_lt_cons left) h₁
        by_cases hparen : u.token.isMark .openParen = true
        · refine .take (fun _ => if_pos hparen) ?_
          refine (decided_sequenceRule ih .closeParen left (Nat.lt_trans hu h)).andThen
            fun r afterArguments hr => ?_
          have h₂ := Nat.lt_trans (Outcome.lighter_of_result hr) hu
          exact decided_postfixRule _ afterArguments (Nat.lt_trans h₂ h)
        · exact .congr (fun _ => if_neg hparen)
            (decided_postfixRule _ (u :: left) (Nat.lt_trans h₁ h))
    · by_cases hbracket : t.token = .mark .openBracket
      · refine .take (fun _ => postfixRule_openBracket e hbracket) ?_
        refine (ih _ (Nat.lt_trans ht h)).andThen fun key afterKey hkey => ?_
        have h₁ := Nat.lt_trans (Outcome.lighter_of_result hkey) ht
        refine (decided_markRule .closeBracket afterKey).andThen fun close left hclose => ?_
        have h₂ := Nat.lt_trans (Outcome.lighter_of_result hclose) h₁
        exact decided_postfixRule _ left (Nat.lt_trans h₂ h)
      · by_cases hparen : t.token = .mark .openParen
        · refine .take (fun _ => postfixRule_openParen e hparen) ?_
          refine (decided_sequenceRule ih .closeParen rest (Nat.lt_trans ht h)).andThen
            fun r left hr => ?_
          have h₁ := Nat.lt_trans (Outcome.lighter_of_result hr) ht
          exact decided_postfixRule _ left (Nat.lt_trans h₁ h)
        · exact .leave fun _ => postfixRule_other e hdot hbracket hparen
termination_by us => Spanned.weightAll us

theorem decided_singleAfter (start : Nat) (name : Name) {us : List Spanned}
    (h : Spanned.weightAll us < n) : Decided (singleAfter start name) us := by
  cases us with
  | nil => exact .ended rfl
  | cons u us =>
    by_cases harrow : u.token.isMark .arrow = true
    · exact .congr (fun _ => if_pos harrow) (decided_lambdaRule ih start [name] h)
    · exact .leave fun _ => if_neg harrow

theorem decided_parenNameAfter (start : Nat) (name : Name) {us : List Spanned}
    (h : Spanned.weightAll us < n) : Decided (parenNameAfter start name) us := by
  cases us with
  | nil => exact .exhausted rfl
  | cons u us =>
    have hlt := Nat.lt_trans (u.weightAll_lt_cons us) h
    by_cases hcomma : u.token.isMark .comma = true
    · refine .take (fun _ => if_pos hcomma) ?_
      refine (decided_parametersRule us).andThen fun names left hnames => ?_
      exact decided_lambdaRule ih start _ (Nat.lt_trans (Outcome.lighter_of_result hnames) hlt)
    · by_cases hclose : u.token.isMark .closeParen = true
      · exact .take (fun _ => (if_neg hcomma).trans (if_pos hclose))
          (decided_singleAfter ih start name hlt)
      · refine .congr (fun _ => (if_neg hcomma).trans (if_neg hclose)) ?_
        refine (decided_postfixRule ih (.name name) _ h).andThen fun e left _ => ?_
        exact .map (decided_markRule .closeParen left)

theorem decided_parenRule (start : Nat) {us : List Spanned} (h : Spanned.weightAll us < n) :
    Decided (parenRule start) us := by
  cases us with
  | nil =>
    refine .exhausted ?_
    rw [parenRule_group rfl, Rule.andThen_error exprRule_nil]
  | cons u us =>
    by_cases hident : ∃ text, u.token = .ident text
    · -- The token after the name tells the forms apart; none of them stops at the name.
      obtain ⟨text, ht⟩ := hident
      exact .take (fun _ => parenRule_ident ht)
        (decided_parenNameAfter ih start _ (Nat.lt_trans (u.weightAll_lt_cons us) h))
    · by_cases hclose : u.token = .mark .closeParen
      · refine .congr (fun _ => parenRule_noParameters (by simp [ParenForm.ofTokens, hclose])) ?_
        refine (decided_markRule .closeParen _).andThen fun s left hs => ?_
        exact decided_lambdaRule ih start [] (Nat.lt_trans (Outcome.lighter_of_result hs) h)
      · have hform : ∀ vs, ParenForm.ofTokens (u :: vs) = .group := fun vs => by
          dsimp only [ParenForm.ofTokens]
          split
          next h => exact absurd h hclose
          next h => exact absurd ⟨_, h⟩ hident
          next => rfl
        refine .congr (fun _ => parenRule_group (hform _)) ?_
        exact (ih _ h).andThen fun e left _ => .map (decided_markRule .closeParen left)

theorem decided_entriesRule : ∀ us : List Spanned, Spanned.weightAll us < n →
    Decided entriesRule us
  | [], _ => .exhausted entriesRule_nil
  | t :: rest, h => by
    have ht := t.weightAll_lt_cons rest
    by_cases hclose : t.token.isMark .closeBrace = true
    · exact .single fun _ => entriesRule_close hclose
    · obtain ⟨key, hkey⟩ | ⟨e, he, hfail⟩ := decided_parseKey t
      · refine .take (fun us => entriesRule_key hclose (hkey us)) ?_
        refine (decided_markRule .colon rest).andThen fun s afterColon hs => ?_
        have h₁ := Nat.lt_trans (Outcome.lighter_of_result hs) ht
        refine (ih _ (Nat.lt_trans h₁ h)).andThen fun value left hvalue => ?_
        have h₂ := Nat.lt_trans (Outcome.lighter_of_result hvalue) h₁
        cases left with
        | nil => exact .exhausted (by rw [skipComma, Rule.andThen_error entriesRule_nil])
        | cons u left =>
          by_cases hcomma : u.token.isMark .comma = true
          · have h₃ := Nat.lt_trans (u.weightAll_lt_cons left) h₂
            exact .take (fun us => by rw [skipComma, if_pos hcomma])
              (.map (decided_entriesRule left (Nat.lt_trans h₃ h)))
          · exact .congr (fun us => by rw [skipComma, if_neg hcomma])
              (.map (decided_entriesRule (u :: left) (Nat.lt_trans h₂ h)))
      · refine .stop he fun us => ?_
        obtain ⟨f, hf, herror, hrest⟩ := hfail us
        exact ⟨f, entriesRule_fails hclose hf, herror, hrest⟩
termination_by us => Spanned.weightAll us

theorem decided_primaryRule (h : Spanned.weightAll (t :: ts) ≤ n) :
    Decided primaryRule (t :: ts) := by
  have hlt := Nat.lt_of_lt_of_le (t.weightAll_lt_cons ts) h
  by_cases hbrace : t.token = .mark .openBrace
  · exact .take (fun _ => primaryRule_openBrace hbrace) (.map (decided_entriesRule ih ts hlt))
  by_cases hbracket : t.token = .mark .openBracket
  · exact .take (fun _ => primaryRule_openBracket hbracket)
      (.map (decided_sequenceRule ih .closeBracket ts hlt))
  by_cases hparen : t.token = .mark .openParen
  · exact .take (fun _ => primaryRule_openParen hparen) (decided_parenRule ih t.span.start hlt)
  by_cases hstring : ∃ parts, t.token = .string parts
  · obtain ⟨parts, ht⟩ := hstring
    cases hparts : Segment.parseAll parts with
    | error e =>
      refine .stop (.code ht hparts) fun us => ⟨⟨e, t :: us, true⟩, ?_, rfl, rfl⟩
      exact primaryRule_string_error ht hparts
    | ok segments =>
      exact .single fun _ => primaryRule_string ht hparts
  cases hatom : t.atom? with
  | some e => exact .single fun _ => primaryRule_atom hatom
  | none =>
    exact .unexpected fun _ => primaryRule_other hatom (fun parts ht => hstring ⟨parts, ht⟩)
      hbrace hbracket hparen

end Rules

theorem decided_exprRule : ∀ ts : List Spanned, Decided exprRule ts
  | [] => .exhausted exprRule_nil
  | t :: rest => by
    have ih : ∀ us, Spanned.weightAll us < Spanned.weightAll (t :: rest) → Decided exprRule us :=
      fun us _ => decided_exprRule us
    by_cases hlet : t.token.isKeyword .letWord = true
    · exact .congr (fun _ => exprRule_cons.trans (if_pos hlet)) (decided_letRule ih (Nat.le_refl _))
    · refine .congr (fun _ => exprRule_cons.trans (if_neg hlet)) ?_
      refine (decided_primaryRule ih (Nat.le_refl _)).andThen fun e left he => ?_
      exact decided_postfixRule ih e left (Outcome.lighter_of_result he)
termination_by ts => Spanned.weightAll ts

/-- One expression up to an end mark. -/
def wholeRule : Rule Expr :=
  exprRule.andThen fun e => eofRule.andThen fun _ => .give e

theorem result_parseWhole (ts : List Spanned) : (Expr.parseWhole ts).result = wholeRule ts := by
  rw [Expr.parseWhole, wholeRule, Rule.andThen, exprRule]
  cases Expr.parse ts with
  | error f => rfl
  | ok e left h =>
    dsimp only [Outcome.result]
    rw [Rule.andThen, eofRule]
    cases expectEof left <;> rfl

theorem decided_wholeRule (ts : List Spanned) : Decided wholeRule ts :=
  (decided_exprRule ts).andThen fun _ left _ => .map (decided_eofRule left)

end ConfigExpr
