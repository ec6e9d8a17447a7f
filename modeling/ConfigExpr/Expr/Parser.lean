import ConfigExpr.Expr.Parser.Basic

/-!
# The grammar

One function for each rule, each taking the tokens from its first one on. `Expr.parse` reads an
expression: a let block, or a primary form with any number of member accesses, calls and index
accesses after it. What an opening parenthesis begins is decided by the two tokens after it. The
code in a string is a token list of its own and has to be one whole expression, comments apart.
-/

namespace ConfigExpr

/-- A comma after an entry of a map may be left out. -/
def skipComma : List Spanned → List Spanned
  | [] => []
  | t :: ts => if t.token.isMark .comma then ts else t :: ts

theorem weightAll_skipComma_le (ts : List Spanned) :
    Spanned.weightAll (skipComma ts) ≤ Spanned.weightAll ts := by
  cases ts with
  | nil => exact Nat.le_refl _
  | cons t ts =>
    rw [skipComma]
    split <;> simp

def beginsWith (m : Mark) : List Spanned → Bool
  | [] => false
  | t :: _ => t.token.isMark m

/-- What an opening parenthesis begins, by the tokens after it. -/
inductive ParenForm where
  /-- A lambda without parameters. -/
  | noParameters
  /-- A lambda with at least two parameters. -/
  | parameterList
  /-- A single name, which may be a parameter. -/
  | singleName
  | group

def ParenForm.ofTokens : List Spanned → ParenForm
  | [] => .group
  | t :: ts =>
    match t.token, ts with
    | .mark .closeParen, _ => .noParameters
    | .ident _, u :: _ =>
      if u.token.isMark .comma then .parameterList
      else if u.token.isMark .closeParen then .singleName
      else .group
    | _, _ => .group

mutual

/-- An expression. -/
def Expr.parse (ts : List Spanned) : Outcome Expr (Spanned.weightAll ts) :=
  match ts with
  | [] => .error .exhausted
  | t :: rest =>
    if t.token.isKeyword .letWord then Expr.parseLet (t :: rest)
    else
      match Expr.parsePrimary (t :: rest) with
      | .error f => .error f
      | .ok e left lighter => Expr.parsePostfix e left lighter
termination_by (Spanned.weightAll ts, 4)

/-- A let block: its keyword, at least one binding, and a body. -/
def Expr.parseLet (ts : List Spanned) : Outcome Expr (Spanned.weightAll ts) :=
  match expectKeyword .letWord ts with
  | .error f => .error f
  | .ok word afterWord h =>
    match Binding.parseAll afterWord h with
    | .error f => .error f
    | .ok [] left _ =>
      let span := match left.head? with
        | some t => t.span
        | none => .point word.stop
      .error (.stop .expectedBinding span left)
    | .ok bindings afterBindings h₁ =>
      match expectKeyword .inWord afterBindings with
      | .error f => .error f
      | .ok _ afterIn h₂ =>
        have lighter := Nat.lt_trans h₂ h₁
        ((Expr.parse afterIn).map fun body =>
          .letIn bindings body ⟨word.start, body.span.stop⟩).weaken lighter
termination_by (Spanned.weightAll ts, 3)

/-- All bindings that follow, none where no name does. -/
def Binding.parseAll {n : Nat} (ts : List Spanned) (h : Spanned.weightAll ts < n) :
    Outcome (List Binding) n :=
  match ts with
  | [] => .ok [] [] h
  | t :: rest =>
    match t.token with
    | .ident text =>
      match expectMark .equals rest with
      | .error f => .error f
      | .ok _ afterEquals h₁ =>
        have h₂ := Nat.lt_trans h₁ (t.weightAll_lt_cons rest)
        match Expr.parse afterEquals with
        | .error f => .error f
        | .ok value left h₃ =>
          have h₄ := Nat.lt_trans h₃ h₂
          (Binding.parseAll left (Nat.lt_trans h₄ h)).map (⟨⟨text, t.span⟩, value⟩ :: ·)
    | _ => .ok [] (t :: rest) h
termination_by (Spanned.weightAll ts, 5)

/-- A form without operators after it. -/
def Expr.parsePrimary (ts : List Spanned) : Outcome Expr (Spanned.weightAll ts) :=
  match ts with
  | [] => .error .exhausted
  | t :: rest =>
    have lighter := t.weightAll_lt_cons rest
    match h : t.token with
    | .int value => .ok (.int value t.span) rest lighter
    | .float value => .ok (.float value t.span) rest lighter
    | .keyword .trueWord => .ok (.bool true t.span) rest lighter
    | .keyword .falseWord => .ok (.bool false t.span) rest lighter
    | .ident text => .ok (.name ⟨text, t.span⟩) rest lighter
    | .string parts =>
      have := StringPart.weightAll_lt_cons h rest
      match Segment.parseAll parts with
      | .error e => .error ⟨e, t :: rest, true⟩
      | .ok segments => .ok (.template segments t.span) rest lighter
    | .mark .openBrace => Expr.parseMap (t :: rest)
    | .mark .openBracket => Expr.parseList (t :: rest)
    | .mark .openParen => (Expr.parseParen t.span.start rest).weaken lighter
    | _ => .error (.unexpected t rest [.expression])
termination_by (Spanned.weightAll ts, 3)

/-- The segments of a string. -/
def Segment.parseAll (parts : List StringPart) : Except ParseError (List Segment) :=
  match parts with
  | [] => .ok []
  | .text text :: others =>
    have := StringPart.weightAll_lt_cons_self (.text text) others
    match Segment.parseAll others with
    | .error e => .error e
    | .ok segments => .ok (.text text :: segments)
  | .code tokens :: others =>
    have := Program.weightAll_withoutComments_lt_code tokens others
    have := StringPart.weightAll_lt_cons_self (.code tokens) others
    match Expr.parse (Program.withoutComments tokens) with
    | .error f => .error f.error
    | .ok e rest _ =>
      match expectEof rest with
      | .error f => .error f.error
      | .ok _ _ _ =>
        match Segment.parseAll others with
        | .error e => .error e
        | .ok segments => .ok (.code e :: segments)
termination_by (StringPart.weightAll parts, 0)

/-- What an opening parenthesis at byte position `start` begins. -/
def Expr.parseParen (start : Nat) (ts : List Spanned) : Outcome Expr (Spanned.weightAll ts) :=
  match ParenForm.ofTokens ts with
  | .noParameters =>
    match expectMark .closeParen ts with
    | .error f => .error f
    | .ok _ rest h => (Expr.parseLambda start [] rest).weaken h
  | .parameterList =>
    match parameters ts with
    | .error f => .error f
    | .ok names rest h => (Expr.parseLambda start names rest).weaken h
  | .singleName =>
    match expectName ts with
    | .error f => .error f
    | .ok name afterName h =>
      match expectMark .closeParen afterName with
      | .error f => .error f
      | .ok _ rest h₁ =>
        have lighter := Nat.lt_trans h₁ h
        if beginsWith .arrow rest then (Expr.parseLambda start [name] rest).weaken lighter
        else .ok (.name name) rest lighter
  | .group =>
    match Expr.parse ts with
    | .error f => .error f
    | .ok e rest h => ((expectMark .closeParen rest).map fun _ => e).weaken h
termination_by (Spanned.weightAll ts, 5)

/-- The arrow and body of a lambda, after its parameter list. -/
def Expr.parseLambda (start : Nat) (names : List Name) (ts : List Spanned) :
    Outcome Expr (Spanned.weightAll ts) :=
  match Name.repeated? [] names with
  | some name => .error (.stop (.duplicateParameter name.text) name.span ts)
  | none =>
    match expectMark .arrow ts with
    | .error f => .error f
    | .ok _ rest h =>
      ((Expr.parse rest).map fun body => .lambda names body ⟨start, body.span.stop⟩).weaken h
termination_by (Spanned.weightAll ts, 6)

/-- The operators after a form, from left to right. -/
def Expr.parsePostfix {n : Nat} (e : Expr) (ts : List Spanned) (h : Spanned.weightAll ts < n) :
    Outcome Expr n :=
  match ts with
  | [] => .ok e [] h
  | t :: rest =>
    have lighter := t.weightAll_lt_cons rest
    match t.token with
    | .mark .dot =>
      match expectName rest with
      | .error f => .error f
      | .ok name [] h₁ =>
        have h₂ := Nat.lt_trans h₁ lighter
        .ok (.member e name ⟨e.span.start, name.span.stop⟩) [] (Nat.lt_trans h₂ h)
      | .ok name (u :: afterName) h₁ =>
        have h₂ := Nat.lt_trans h₁ lighter
        have h₃ := Nat.lt_trans (u.weightAll_lt_cons afterName) h₂
        if u.token.isMark .openParen then
          match Expr.parseSequence .closeParen afterName with
          | .error f => .error f
          | .ok (arguments, stop) left h₄ =>
            have h₅ := Nat.lt_trans h₄ h₃
            Expr.parsePostfix (.method e name arguments ⟨e.span.start, stop⟩) left
              (Nat.lt_trans h₅ h)
        else
          Expr.parsePostfix (.member e name ⟨e.span.start, name.span.stop⟩) (u :: afterName)
            (Nat.lt_trans h₂ h)
    | .mark .openBracket =>
      match Expr.parse rest with
      | .error f => .error f
      | .ok key afterKey h₁ =>
        match expectMark .closeBracket afterKey with
        | .error f => .error f
        | .ok close left h₂ =>
          have h₃ := Nat.lt_trans (Nat.lt_trans h₂ h₁) lighter
          Expr.parsePostfix (.index e key ⟨e.span.start, close.stop⟩) left (Nat.lt_trans h₃ h)
    | .mark .openParen =>
      match Expr.parseSequence .closeParen rest with
      | .error f => .error f
      | .ok (arguments, stop) left h₁ =>
        have h₂ := Nat.lt_trans h₁ lighter
        Expr.parsePostfix (.apply e arguments ⟨e.span.start, stop⟩) left (Nat.lt_trans h₂ h)
    | _ => .ok e (t :: rest) h
termination_by (Spanned.weightAll ts, 2)

/-- Expressions separated by commas up to the given closing mark, which a comma may precede; also
the place where that mark stops. -/
def Expr.parseSequence (close : Mark) (ts : List Spanned) :
    Outcome (List Expr × Nat) (Spanned.weightAll ts) :=
  match ts with
  | [] => .error .exhausted
  | t :: rest =>
    if t.token.isMark close then .ok ([], t.span.stop) rest (t.weightAll_lt_cons rest)
    else
      match Expr.parse (t :: rest) with
      | .error f => .error f
      | .ok _ [] _ => .error .exhausted
      | .ok item (u :: left) h =>
        have lighter := Nat.lt_trans (u.weightAll_lt_cons left) h
        if u.token.isMark .comma then
          ((Expr.parseSequence close left).map fun (items, stop) => (item :: items, stop)).weaken
            lighter
        else if u.token.isMark close then .ok ([item], u.span.stop) left lighter
        else .error (.unexpected u left [.mark .comma, .mark close])
termination_by (Spanned.weightAll ts, 5)

/-- A list between brackets. -/
def Expr.parseList (ts : List Spanned) : Outcome Expr (Spanned.weightAll ts) :=
  match expectMark .openBracket ts with
  | .error f => .error f
  | .ok opening rest h =>
    ((Expr.parseSequence .closeBracket rest).map fun (items, stop) =>
      .list items ⟨opening.start, stop⟩).weaken h
termination_by (Spanned.weightAll ts, 2)

/-- A map between braces. -/
def Expr.parseMap (ts : List Spanned) : Outcome Expr (Spanned.weightAll ts) :=
  match expectMark .openBrace ts with
  | .error f => .error f
  | .ok opening rest h =>
    ((Entry.parseAll rest).map fun (entries, stop) =>
      .map entries ⟨opening.start, stop⟩).weaken h
termination_by (Spanned.weightAll ts, 2)

/-- The entries of a map up to its closing brace, each with at most one comma after it; also the
place where that brace stops. -/
def Entry.parseAll (ts : List Spanned) : Outcome (List Entry × Nat) (Spanned.weightAll ts) :=
  match ts with
  | [] => .error .exhausted
  | t :: rest =>
    if t.token.isMark .closeBrace then .ok ([], t.span.stop) rest (t.weightAll_lt_cons rest)
    else
      match Name.parseKey t rest with
      | .error f => .error f
      | .ok key =>
        match expectMark .colon rest with
        | .error f => .error f
        | .ok _ afterColon h =>
          have h₁ := Nat.lt_trans h (t.weightAll_lt_cons rest)
          match Expr.parse afterColon with
          | .error f => .error f
          | .ok value left h₂ =>
            have lighter := Nat.lt_of_le_of_lt (weightAll_skipComma_le left) (Nat.lt_trans h₂ h₁)
            ((Entry.parseAll (skipComma left)).map fun (others, stop) =>
              (⟨key, value⟩ :: others, stop)).weaken lighter
termination_by (Spanned.weightAll ts, 2)

/-- A key: a name, or a string without code. -/
def Name.parseKey (t : Spanned) (rest : List Spanned) : Except Failure Name :=
  match h : t.token with
  | .ident text => .ok ⟨text, t.span⟩
  | .string parts =>
    have := StringPart.weightAll_lt_cons h rest
    match Segment.parseAll parts with
    | .error e => .error ⟨e, t :: rest, true⟩
    | .ok segments =>
      match Segment.plainText? segments with
      | some text => .ok ⟨text, t.span⟩
      | none => .error (.stop .invalidKey t.span (t :: rest))
  | _ => .error (.unexpected t rest [.key, .mark .closeBrace])
termination_by (Spanned.weightAll (t :: rest), 1)

end

/-- An expression with nothing but the end mark after it. -/
def Expr.parseWhole (ts : List Spanned) : Outcome Expr (Spanned.weightAll ts) :=
  match Expr.parse ts with
  | .error f => .error f
  | .ok e rest h =>
    match expectEof rest with
    | .error f => .error f
    | .ok _ left h' => .ok e left (Nat.lt_trans h' h)

end ConfigExpr
