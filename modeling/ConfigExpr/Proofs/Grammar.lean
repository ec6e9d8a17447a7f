import ConfigExpr.Proofs.Spans

/-!
# The grammar

The rules of the language as relations between token lists and trees, apart from any parser. The
trees have no positions. Expressions, operands and what follows them, arguments, bindings, entries
and the segments of a string depend on one another; `Grammar.Expression` is the start of all rules.
-/

namespace ConfigExpr

/-- Tokens an expression can begin with. -/
def Token.isStart : Token → Bool
  | .int _ | .float _ | .ident _ | .string _ => true
  | .keyword word => word != .inWord
  | .mark m => m = .openBrace ∨ m = .openBracket ∨ m = .openParen
  | _ => false

namespace Grammar

/-- Names separated by commas. -/
def nameTokens : List String → List Token
  | [] => []
  | [name] => [.ident name]
  | name :: names => .ident name :: .mark .comma :: nameTokens names

/-- A key is a name or a string without code. -/
inductive Key : Token → Name → Prop where
  | name (text : String) : Key (.ident text) (.of text)
  | string (texts : List String) : Key (.string (texts.map .text)) (.of (String.join texts))

/-- A comma after an entry of a map may be left out. -/
inductive Separator : List Token → Prop where
  | none : Separator []
  | comma : Separator [.mark .comma]

mutual

inductive Expression : List Token → Expr → Prop where
  | letIn {bs es : List Token} {bindings : List Binding} {body : Expr} :
    bindings ≠ [] → Bindings bs bindings → Expression es body →
    Expression (.keyword .letWord :: bs ++ .keyword .inWord :: es) (.letIn bindings body .nowhere)
  | lambda (names : List String) {es : List Token} {body : Expr} :
    names.Nodup → Expression es body →
    Expression (.mark .openParen :: nameTokens names ++ .mark .closeParen :: .mark .arrow :: es)
      (.lambda (names.map .of) body .nowhere)
  | chain {ps os : List Token} {p e : Expr} :
    Primary ps p → Operators p os e → Expression (ps ++ os) e

inductive Primary : List Token → Expr → Prop where
  | int (v : Int64) : Primary [.int v] (.int v .nowhere)
  | float (v : Binary64) : Primary [.float v] (.float v .nowhere)
  | trueWord : Primary [.keyword .trueWord] (.bool true .nowhere)
  | falseWord : Primary [.keyword .falseWord] (.bool false .nowhere)
  | name (text : String) : Primary [.ident text] (.name (.of text))
  | string (parts : List StringPart) {segments : List Segment} :
    Segments parts segments → Primary [.string parts] (.template segments .nowhere)
  | list {ts : List Token} {items : List Expr} :
    Arguments ts items →
    Primary (.mark .openBracket :: ts ++ [.mark .closeBracket]) (.list items .nowhere)
  | map {ts : List Token} {entries : List Entry} :
    Entries ts entries →
    Primary (.mark .openBrace :: ts ++ [.mark .closeBrace]) (.map entries .nowhere)
  | group {ts : List Token} {e : Expr} :
    Expression ts e → Primary (.mark .openParen :: ts ++ [.mark .closeParen]) e

/-- `Operators e ts e'`: the operators `ts` after an operand `e` make `e'` of it. -/
inductive Operators : Expr → List Token → Expr → Prop where
  | none (e : Expr) : Operators e [] e
  /-- Before an opening parenthesis a name is the name of a method. -/
  | member (name : String) {e e' : Expr} {ts : List Token} :
    ts.head? ≠ some (.mark .openParen) → Operators (.member e (.of name) .nowhere) ts e' →
    Operators e (.mark .dot :: .ident name :: ts) e'
  | method (name : String) {e e' : Expr} {as ts : List Token} {arguments : List Expr} :
    Arguments as arguments → Operators (.method e (.of name) arguments .nowhere) ts e' →
    Operators e
      (.mark .dot :: .ident name :: .mark .openParen :: as ++ .mark .closeParen :: ts) e'
  | index {e e' key : Expr} {ks ts : List Token} :
    Expression ks key → Operators (.index e key .nowhere) ts e' →
    Operators e (.mark .openBracket :: ks ++ .mark .closeBracket :: ts) e'
  | apply {e e' : Expr} {as ts : List Token} {arguments : List Expr} :
    Arguments as arguments → Operators (.apply e arguments .nowhere) ts e' →
    Operators e (.mark .openParen :: as ++ .mark .closeParen :: ts) e'

/-- Expressions separated by commas; a comma may follow the last one. -/
inductive Arguments : List Token → List Expr → Prop where
  | none : Arguments [] []
  | last {ts : List Token} {e : Expr} : Expression ts e → Arguments ts [e]
  | more {ts us : List Token} {e : Expr} {es : List Expr} :
    Expression ts e → Arguments us es → Arguments (ts ++ .mark .comma :: us) (e :: es)

inductive Bindings : List Token → List Binding → Prop where
  | none : Bindings [] []
  | more (name : String) {ts us : List Token} {e : Expr} {bs : List Binding} :
    Expression ts e → Bindings us bs →
    Bindings (.ident name :: .mark .equals :: ts ++ us) (⟨.of name, e⟩ :: bs)

inductive Entries : List Token → List Entry → Prop where
  | none : Entries [] []
  | more {t : Token} {key : Name} {ts comma us : List Token} {e : Expr} {es : List Entry} :
    Key t key → Expression ts e → Separator comma → Entries us es →
    Entries (t :: .mark .colon :: ts ++ comma ++ us) (⟨key, e⟩ :: es)

/-- The code in a string is one whole expression before its end mark. -/
inductive Segments : List StringPart → List Segment → Prop where
  | none : Segments [] []
  | text {s : String} {ps : List StringPart} {ss : List Segment} :
    Segments ps ss → Segments (.text s :: ps) (.text s :: ss)
  | code {tokens : List Spanned} {ts : List Token} {ps : List StringPart} {e : Expr}
    {ss : List Segment} :
    tokens.map (·.token) = ts ++ [.eof] → Expression ts e → Segments ps ss →
    Segments (.code tokens :: ps) (.code e :: ss)

end

variable {us : List Token} {e p : Expr}

theorem Primary.head (h : Primary us p) :
    ∃ t us', us = t :: us' ∧ t.isStart = true ∧ t ≠ .keyword .letWord := by
  cases h <;> exact ⟨_, _, rfl, rfl, nofun⟩

theorem Expression.head (h : Expression us e) : ∃ t us', us = t :: us' ∧ t.isStart = true := by
  cases h with
  | letIn => exact ⟨_, _, rfl, rfl⟩
  | lambda => exact ⟨_, _, rfl, rfl⟩
  | chain hp =>
    obtain ⟨t, us', rfl, ht, -⟩ := hp.head
    exact ⟨t, _, rfl, ht⟩

theorem comment_notMem_nameTokens : ∀ names : List String, .comment ∉ nameTokens names
  | [] | [_] => by simp [nameTokens]
  | _ :: name :: names => by simp [nameTokens, comment_notMem_nameTokens (name :: names)]

theorem Key.ne_comment {t : Token} {key : Name} (h : Key t key) : t ≠ .comment := by
  cases h <;> exact nofun

theorem Separator.comment_notMem (h : Separator us) : .comment ∉ us := by
  cases h <;> simp

/-! No rule has a comment, so there are none between the tokens of what they derive. -/

mutual

theorem Expression.comment_notMem : ∀ {us : List Token} {e : Expr}, Expression us e →
    .comment ∉ us
  | _, _, .letIn _ hbs he => by simp [hbs.comment_notMem, he.comment_notMem]
  | _, _, .lambda names _ he => by simp [comment_notMem_nameTokens, he.comment_notMem]
  | _, _, .chain hp ho => by simp [hp.comment_notMem, ho.comment_notMem]

theorem Primary.comment_notMem : ∀ {us : List Token} {p : Expr}, Primary us p → .comment ∉ us
  | _, _, .int _ | _, _, .float _ | _, _, .trueWord | _, _, .falseWord | _, _, .name _
  | _, _, .string _ _ => by simp
  | _, _, .list ha => by simp [ha.comment_notMem]
  | _, _, .map hes => by simp [hes.comment_notMem]
  | _, _, .group he => by simp [he.comment_notMem]

theorem Operators.comment_notMem : ∀ {us : List Token} {p e : Expr}, Operators p us e →
    .comment ∉ us
  | _, _, _, .none _ => by simp
  | _, _, _, .member _ _ ho => by simp [ho.comment_notMem]
  | _, _, _, .method _ ha ho => by simp [ha.comment_notMem, ho.comment_notMem]
  | _, _, _, .index hk ho => by simp [hk.comment_notMem, ho.comment_notMem]
  | _, _, _, .apply ha ho => by simp [ha.comment_notMem, ho.comment_notMem]

theorem Arguments.comment_notMem : ∀ {us : List Token} {es : List Expr}, Arguments us es →
    .comment ∉ us
  | _, _, .none => by simp
  | _, _, .last he => he.comment_notMem
  | _, _, .more he ha => by simp [he.comment_notMem, ha.comment_notMem]

theorem Bindings.comment_notMem : ∀ {us : List Token} {bs : List Binding}, Bindings us bs →
    .comment ∉ us
  | _, _, .none => by simp
  | _, _, .more _ he hbs => by simp [he.comment_notMem, hbs.comment_notMem]

theorem Entries.comment_notMem : ∀ {us : List Token} {es : List Entry}, Entries us es →
    .comment ∉ us
  | _, _, .none => by simp
  | _, _, .more hk he hc hes => by
    simp [hk.ne_comment.symm, he.comment_notMem, hc.comment_notMem, hes.comment_notMem]

end

end Grammar

end ConfigExpr
