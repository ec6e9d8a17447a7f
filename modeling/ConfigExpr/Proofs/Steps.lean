import ConfigExpr.Expr.Parser

/-!
# One step of the parser

`Outcome.Returns` says that a parser succeeds, with a value and the tokens left, and leaves out the
bound that its result carries. For each rule one lemma says when it returns, in terms of the rules
it calls; whatever holds of successful parses is proved from these.
-/

namespace ConfigExpr

namespace Outcome

variable {α β : Type} {m n : Nat}

def Returns (o : Outcome α n) (value : α) (rest : List Spanned) : Prop :=
  ∃ lighter, o = .ok value rest lighter

theorem Returns.lighter {o : Outcome α n} {value : α} {rest : List Spanned}
    (h : o.Returns value rest) : Spanned.weightAll rest < n :=
  h.1

theorem Returns.unique {o : Outcome α n} {value w : α} {rest left : List Spanned}
    (h : o.Returns value rest) (h' : o.Returns w left) : value = w := by
  obtain ⟨_, rfl⟩ := h
  obtain ⟨_, h'⟩ := h'
  cases h'
  rfl

@[simp] theorem returns_ok {value w : α} {rest left : List Spanned}
    {lighter : Spanned.weightAll rest < n} :
    (ok value rest lighter).Returns w left ↔ value = w ∧ rest = left := by
  constructor
  · rintro ⟨_, h⟩
    cases h
    exact ⟨rfl, rfl⟩
  · rintro ⟨rfl, rfl⟩
    exact ⟨lighter, rfl⟩

@[simp] theorem exists_returns_ok {value : α} {rest : List Spanned}
    {lighter : Spanned.weightAll rest < n} {p : α → List Spanned → Prop} :
    (∃ w left, (ok value rest lighter).Returns w left ∧ p w left) ↔ p value rest := by
  constructor
  · rintro ⟨_, _, h, hp⟩
    obtain ⟨rfl, rfl⟩ := returns_ok.1 h
    exact hp
  · exact fun hp => ⟨value, rest, ⟨_, rfl⟩, hp⟩

@[simp] theorem returns_error {f : Failure} {w : α} {left : List Spanned} :
    ¬ (error f : Outcome α n).Returns w left := by
  rintro ⟨_, h⟩
  cases h

@[simp] theorem returns_map {f : α → β} {o : Outcome α n} {w : β} {left : List Spanned} :
    (o.map f).Returns w left ↔ ∃ value, o.Returns value left ∧ f value = w := by
  cases o with
  | ok value rest lighter =>
    simp only [map, returns_ok]
    constructor
    · rintro ⟨rfl, rfl⟩
      exact ⟨value, ⟨rfl, rfl⟩, rfl⟩
    · rintro ⟨_, ⟨rfl, rfl⟩, rfl⟩
      exact ⟨rfl, rfl⟩
  | error f => simp [map]

@[simp] theorem returns_weaken {h : m < n} {o : Outcome α m} {w : α} {left : List Spanned} :
    (o.weaken h).Returns w left ↔ o.Returns w left := by
  cases o <;> simp [weaken]

theorem returns_ite {c : Prop} [Decidable c] {o : Outcome α n} {f : Failure} {w : α}
    {left : List Spanned} :
    (if c then o else error f).Returns w left ↔ c ∧ o.Returns w left := by
  split <;> simp [*]

end Outcome

open Outcome

namespace Token

theorem isMark_iff {m : Mark} {t : Token} : t.isMark m = true ↔ t = .mark m := by
  cases t <;> simp [isMark, eq_comm]

theorem isKeyword_iff {w : Keyword} {t : Token} : t.isKeyword w = true ↔ t = .keyword w := by
  cases t <;> simp [isKeyword, eq_comm]

theorem isEof_iff {t : Token} : t.isEof = true ↔ t = .eof := by
  cases t <;> simp [isEof]

end Token

theorem returns_expectMark {m : Mark} {ts rest : List Spanned} {s : Span} :
    (expectMark m ts).Returns s rest ↔ ∃ t, ts = t :: rest ∧ t.token = .mark m ∧ t.span = s := by
  cases ts with
  | nil => simp [expectMark]
  | cons t ts =>
    simp only [expectMark, returns_ite, returns_ok, Token.isMark_iff]
    grind

theorem returns_expectKeyword {w : Keyword} {ts rest : List Spanned} {s : Span} :
    (expectKeyword w ts).Returns s rest ↔
      ∃ t, ts = t :: rest ∧ t.token = .keyword w ∧ t.span = s := by
  cases ts with
  | nil => simp [expectKeyword]
  | cons t ts =>
    simp only [expectKeyword, returns_ite, returns_ok, Token.isKeyword_iff]
    grind

theorem returns_expectEof {ts rest : List Spanned} {s : Span} :
    (expectEof ts).Returns s rest ↔ ∃ t, ts = t :: rest ∧ t.token = .eof ∧ t.span = s := by
  cases ts with
  | nil => simp [expectEof]
  | cons t ts =>
    simp only [expectEof, returns_ite, returns_ok, Token.isEof_iff]
    grind

theorem returns_expectName {ts rest : List Spanned} {name : Name} :
    (expectName ts).Returns name rest ↔
      ∃ t, ts = t :: rest ∧ t.token = .ident name.text ∧ t.span = name.span := by
  cases ts with
  | nil => simp [expectName]
  | cons t ts =>
    obtain ⟨token, span⟩ := t
    cases token
    case ident text =>
      simp only [expectName, returns_ok]
      constructor
      · rintro ⟨rfl, rfl⟩
        exact ⟨_, rfl, rfl, rfl⟩
      · rintro ⟨_, h, ht, hs⟩
        cases h
        cases ht
        cases hs
        exact ⟨rfl, rfl⟩
    all_goals simp [expectName]

theorem not_returns_parameters_nil {names : List Name} {rest : List Spanned} :
    ¬ (parameters []).Returns names rest := by
  simp [parameters, expectName]

theorem returns_parameters {ts rest : List Spanned} {names : List Name} :
    (parameters ts).Returns names rest ↔
      ∃ name after, (expectName ts).Returns name after ∧
        match after with
        | [] => False
        | t :: left =>
          if t.token.isMark .comma then
            ∃ others, (parameters left).Returns others rest ∧ name :: others = names
          else if t.token.isMark .closeParen then [name] = names ∧ left = rest
          else False := by
  rw [parameters]
  cases hn : expectName ts with
  | error f => simp
  | ok name after h =>
    rw [exists_returns_ok]
    cases after with
    | nil => simp only [returns_error]
    | cons t left =>
      dsimp only
      split
      · simp only [returns_weaken, returns_map]
      · split <;> simp only [returns_ok, returns_error]

/-! ## The rules -/

variable {n : Nat} {t : Spanned} {ts rest : List Spanned} {e : Expr}

theorem not_returns_parse_nil : ¬ (Expr.parse []).Returns e rest := by
  simp [Expr.parse]

theorem returns_parse :
    (Expr.parse (t :: ts)).Returns e rest ↔
      (t.token = .keyword .letWord ∧ (Expr.parseLet (t :: ts)).Returns e rest) ∨
      (t.token ≠ .keyword .letWord ∧ ∃ p left h, (Expr.parsePrimary (t :: ts)).Returns p left ∧
        (Expr.parsePostfix (n := Spanned.weightAll (t :: ts)) p left h).Returns e rest) := by
  rw [Expr.parse]
  split
  · next h => simp [Token.isKeyword_iff.1 h]
  · next h =>
    have h := mt Token.isKeyword_iff.2 h
    cases hp : Expr.parsePrimary (t :: ts) with
    | error f => simp [h]
    | ok p left lighter =>
      simp only [h, returns_ok]
      grind

theorem returns_parseLet :
    (Expr.parseLet ts).Returns e rest ↔
      ∃ word afterWord, (expectKeyword .letWord ts).Returns word afterWord ∧
        ∃ h bindings afterBindings,
          (Binding.parseAll (n := Spanned.weightAll ts) afterWord h).Returns
            bindings afterBindings ∧ bindings ≠ [] ∧
        ∃ s afterIn, (expectKeyword .inWord afterBindings).Returns s afterIn ∧
        ∃ body, (Expr.parse afterIn).Returns body rest ∧
          .letIn bindings body ⟨word.start, body.span.stop⟩ = e := by
  rw [Expr.parseLet]
  cases hw : expectKeyword .letWord ts with
  | error f => simp
  | ok word afterWord h =>
    simp only [exists_returns_ok]
    rw [exists_prop_of_true h]
    cases hb : Binding.parseAll (n := Spanned.weightAll ts) afterWord h with
    | error f => simp
    | ok bindings afterBindings h₁ =>
      rw [exists_returns_ok]
      cases bindings with
      | nil => simp
      | cons b bs =>
        cases hi : expectKeyword .inWord afterBindings with
        | error f => simp [hi]
        | ok s afterIn h₂ => simp only [returns_weaken, returns_map, exists_returns_ok, ne_eq,
            reduceCtorEq, not_false_eq_true, true_and, hi]

theorem returns_parseAll_bindings_nil {bindings : List Binding} {h : Spanned.weightAll [] < n} :
    (Binding.parseAll [] h).Returns bindings rest ↔ [] = bindings ∧ [] = rest := by
  rw [Binding.parseAll, returns_ok]

theorem returns_parseAll_bindings {bindings : List Binding}
    {h : Spanned.weightAll (t :: ts) < n} :
    (Binding.parseAll (t :: ts) h).Returns bindings rest ↔
      match t.token with
      | .ident name =>
        ∃ s afterEquals, (expectMark .equals ts).Returns s afterEquals ∧
        ∃ value left, (Expr.parse afterEquals).Returns value left ∧
        ∃ h', ∃ others, (Binding.parseAll (n := n) left h').Returns others rest ∧
          ⟨⟨name, t.span⟩, value⟩ :: others = bindings
      | _ => [] = bindings ∧ t :: ts = rest := by
  rw [Binding.parseAll]
  cases t.token with
  | ident name =>
    simp only
    cases he : expectMark .equals ts with
    | error f => simp
    | ok s afterEquals h₁ =>
      cases hv : Expr.parse afterEquals with
      | error f => simp [hv]
      | ok value left h₂ =>
        simp only [exists_returns_ok, hv, returns_map]
        rw [exists_prop_of_true]
  | _ => exact returns_ok

/-- What a primary form of one token stands for. -/
def Spanned.atom? (t : Spanned) : Option Expr :=
  match t.token with
  | .int v => some (.int v t.span)
  | .float v => some (.float v t.span)
  | .keyword .trueWord => some (.bool true t.span)
  | .keyword .falseWord => some (.bool false t.span)
  | .ident text => some (.name ⟨text, t.span⟩)
  | _ => none

theorem returns_parsePrimary :
    (Expr.parsePrimary (t :: ts)).Returns e rest ↔
      (Spanned.atom? t = some e ∧ rest = ts) ∨
      (∃ parts segments, t.token = .string parts ∧ Segment.parseAll parts = .ok segments ∧
        e = .template segments t.span ∧ rest = ts) ∨
      (t.token = .mark .openBrace ∧ (Expr.parseMap (t :: ts)).Returns e rest) ∨
      (t.token = .mark .openBracket ∧ (Expr.parseList (t :: ts)).Returns e rest) ∨
      (t.token = .mark .openParen ∧ (Expr.parseParen t.span.start ts).Returns e rest) := by
  rw [Expr.parsePrimary]
  split
  case h_6 parts h =>
    cases hs : Segment.parseAll parts with
    | error f => simp [h, hs, Spanned.atom?]
    | ok segments => simp [-Spanned.weightAll_cons, h, hs, Spanned.atom?, eq_comm]
  case h_10 h₁ h₂ h₃ h₄ h₅ h₆ h₇ h₈ h₉ =>
    refine iff_of_false returns_error ?_
    rintro (⟨ha, -⟩ | ⟨_, _, h, -⟩ | ⟨h, -⟩ | ⟨h, -⟩ | ⟨h, -⟩)
    · unfold Spanned.atom? at ha
      split at ha
      · exact h₁ _ ‹_›
      · exact h₂ _ ‹_›
      · exact h₃ ‹_›
      · exact h₄ ‹_›
      · exact h₅ _ ‹_›
      · cases ha
    · exact h₆ _ h
    · exact h₇ h
    · exact h₈ h
    · exact h₉ h
  all_goals
    next h => simp [-Spanned.weightAll_cons, h, Spanned.atom?, eq_comm]

theorem parseAll_segments_text {s : String} {parts : List StringPart} {segments : List Segment} :
    Segment.parseAll (.text s :: parts) = .ok segments ↔
      ∃ others, Segment.parseAll parts = .ok others ∧ segments = .text s :: others := by
  rw [Segment.parseAll]
  cases Segment.parseAll parts <;> simp [eq_comm]

theorem parseAll_segments_code {tokens : List Spanned} {parts : List StringPart}
    {segments : List Segment} :
    Segment.parseAll (.code tokens :: parts) = .ok segments ↔
      ∃ e left s more others, (Expr.parse (Program.withoutComments tokens)).Returns e left ∧
        (expectEof left).Returns s more ∧ Segment.parseAll parts = .ok others ∧
        segments = .code e :: others := by
  rw [Segment.parseAll]
  constructor
  · intro h
    split at h
    · cases h
    next e left h₁ he =>
    split at h
    · cases h
    next s more h₂ hs =>
    split at h
    · cases h
    next others ho =>
    cases h
    exact ⟨e, left, s, more, others, ⟨_, he⟩, ⟨_, hs⟩, ho, rfl⟩
  · rintro ⟨e, left, s, more, others, ⟨_, he⟩, ⟨_, hs⟩, ho, rfl⟩
    simp only [he, hs, ho]

theorem returns_parseLambda {start : Nat} {names : List Name} :
    (Expr.parseLambda start names ts).Returns e rest ↔
      Name.repeated? [] names = none ∧ ∃ s left body, (expectMark .arrow ts).Returns s left ∧
        (Expr.parse left).Returns body rest ∧ e = .lambda names body ⟨start, body.span.stop⟩ := by
  rw [Expr.parseLambda]
  constructor
  · intro h
    split at h
    · exact absurd h returns_error
    next hn =>
    split at h
    · exact absurd h returns_error
    next s left h₁ hs =>
    obtain ⟨body, hbody, rfl⟩ := returns_map.1 (returns_weaken.1 h)
    exact ⟨hn, s, left, body, ⟨_, hs⟩, hbody, rfl⟩
  · rintro ⟨hn, s, left, body, ⟨_, hs⟩, hbody, rfl⟩
    simp only [hn, hs, returns_weaken, returns_map]
    exact ⟨body, hbody, rfl⟩

theorem returns_parseParen {start : Nat} :
    (Expr.parseParen start ts).Returns e rest ↔
      match ParenForm.ofTokens ts with
      | .noParameters => ∃ s left, (expectMark .closeParen ts).Returns s left ∧
          (Expr.parseLambda start [] left).Returns e rest
      | .parameterList => ∃ names left, (parameters ts).Returns names left ∧
          (Expr.parseLambda start names left).Returns e rest
      | .singleName => ∃ name afterName, (expectName ts).Returns name afterName ∧
          ∃ s left, (expectMark .closeParen afterName).Returns s left ∧
          if beginsWith .arrow left then (Expr.parseLambda start [name] left).Returns e rest
          else .name name = e ∧ left = rest
      | .group => ∃ inner left, (Expr.parse ts).Returns inner left ∧
          ∃ s, (expectMark .closeParen left).Returns s rest ∧ inner = e := by
  rw [Expr.parseParen]
  cases hf : ParenForm.ofTokens ts with
  | noParameters =>
    cases hs : expectMark .closeParen ts with
    | error f => simp
    | ok s left h => simp only [returns_weaken, exists_returns_ok]
  | parameterList =>
    cases hn : parameters ts with
    | error f => simp
    | ok names left h => simp only [returns_weaken, exists_returns_ok]
  | singleName =>
    cases hn : expectName ts with
    | error f => simp
    | ok name afterName h =>
      cases hs : expectMark .closeParen afterName with
      | error f => simp [hs]
      | ok s left h =>
        simp only [exists_returns_ok, hs]
        split <;> simp only [returns_weaken, returns_ok]
  | group =>
    cases he : Expr.parse ts with
    | error f => simp
    | ok inner left h => simp only [returns_weaken, exists_returns_ok, returns_map]

theorem not_returns_parseSequence_nil {close : Mark} {r : List Expr × Nat} :
    ¬ (Expr.parseSequence close []).Returns r rest := by
  simp [Expr.parseSequence]

theorem returns_parseSequence {close : Mark} {items : List Expr} {stop : Nat} :
    (Expr.parseSequence close (t :: ts)).Returns (items, stop) rest ↔
      if t.token.isMark close then ([], t.span.stop) = (items, stop) ∧ ts = rest
      else ∃ item after, (Expr.parse (t :: ts)).Returns item after ∧
        match after with
        | [] => False
        | u :: left =>
          if u.token.isMark .comma then
            ∃ others, (Expr.parseSequence close left).Returns (others, stop) rest ∧
              item :: others = items
          else if u.token.isMark close then ([item], u.span.stop) = (items, stop) ∧ left = rest
          else False := by
  rw [Expr.parseSequence]
  split
  · simp only [returns_ok]
  · cases hi : Expr.parse (t :: ts) with
    | error f => simp
    | ok item after h =>
      rw [exists_returns_ok]
      cases after with
      | nil => simp only [returns_error]
      | cons u left =>
        dsimp only
        split
        · simp only [returns_weaken, returns_map]
          constructor
          · rintro ⟨⟨others, stop'⟩, ho, he⟩
            cases he
            exact ⟨others, ho, rfl⟩
          · rintro ⟨others, ho, rfl⟩
            exact ⟨(others, stop), ho, rfl⟩
        · split <;> simp only [returns_ok, returns_error]

theorem returns_parseList :
    (Expr.parseList ts).Returns e rest ↔
      ∃ opening left, (expectMark .openBracket ts).Returns opening left ∧
        ∃ items stop, (Expr.parseSequence .closeBracket left).Returns (items, stop) rest ∧
          .list items ⟨opening.start, stop⟩ = e := by
  rw [Expr.parseList]
  cases ho : expectMark .openBracket ts with
  | error f => simp
  | ok opening left h => simp only [returns_weaken, returns_map, exists_returns_ok, Prod.exists]

theorem returns_parseMap :
    (Expr.parseMap ts).Returns e rest ↔
      ∃ opening left, (expectMark .openBrace ts).Returns opening left ∧
        ∃ entries stop, (Entry.parseAll left).Returns (entries, stop) rest ∧
          .map entries ⟨opening.start, stop⟩ = e := by
  rw [Expr.parseMap]
  cases ho : expectMark .openBrace ts with
  | error f => simp
  | ok opening left h => simp only [returns_weaken, returns_map, exists_returns_ok, Prod.exists]

theorem not_returns_parseAll_entries_nil {r : List Entry × Nat} :
    ¬ (Entry.parseAll []).Returns r rest := by
  simp [Entry.parseAll]

theorem returns_parseAll_entries {entries : List Entry} {stop : Nat} :
    (Entry.parseAll (t :: ts)).Returns (entries, stop) rest ↔
      if t.token.isMark .closeBrace then ([], t.span.stop) = (entries, stop) ∧ ts = rest
      else ∃ key, Name.parseKey t ts = .ok key ∧
        ∃ s afterColon, (expectMark .colon ts).Returns s afterColon ∧
        ∃ value left, (Expr.parse afterColon).Returns value left ∧
        ∃ others, (Entry.parseAll (skipComma left)).Returns (others, stop) rest ∧
          ⟨key, value⟩ :: others = entries := by
  rw [Entry.parseAll]
  split
  · simp only [returns_ok]
  · cases hk : Name.parseKey t ts with
    | error f => simp
    | ok key =>
      cases hs : expectMark .colon ts with
      | error f => simp
      | ok s afterColon h =>
        cases hv : Expr.parse afterColon with
        | error f => simp [hv]
        | ok value left h₂ =>
          simp only [returns_weaken, returns_map, exists_returns_ok, hv]
          constructor
          · rintro ⟨⟨others, stop'⟩, ho, he⟩
            cases he
            exact ⟨key, rfl, others, ho, rfl⟩
          · rintro ⟨_, hkey, others, ho, rfl⟩
            cases hkey
            exact ⟨(others, stop), ho, rfl⟩

theorem returns_parsePostfix_nil {e' : Expr} {h : Spanned.weightAll [] < n} :
    (Expr.parsePostfix e [] h).Returns e' rest ↔ e = e' ∧ [] = rest := by
  rw [Expr.parsePostfix, returns_ok]

theorem returns_parsePostfix {e' : Expr} {h : Spanned.weightAll (t :: ts) < n} :
    (Expr.parsePostfix e (t :: ts) h).Returns e' rest ↔
      match t.token with
      | .mark .dot =>
        ∃ name afterName, (expectName ts).Returns name afterName ∧
          if beginsWith .openParen afterName then
            ∃ r left, (Expr.parseSequence .closeParen afterName.tail).Returns r left ∧
            ∃ h', (Expr.parsePostfix (n := n) (.method e name r.1 ⟨e.span.start, r.2⟩)
              left h').Returns e' rest
          else
            ∃ h', (Expr.parsePostfix (n := n) (.member e name ⟨e.span.start, name.span.stop⟩)
              afterName h').Returns e' rest
      | .mark .openBracket =>
        ∃ key afterKey, (Expr.parse ts).Returns key afterKey ∧
        ∃ close left, (expectMark .closeBracket afterKey).Returns close left ∧
        ∃ h', (Expr.parsePostfix (n := n) (.index e key ⟨e.span.start, close.stop⟩)
          left h').Returns e' rest
      | .mark .openParen =>
        ∃ r left, (Expr.parseSequence .closeParen ts).Returns r left ∧
        ∃ h', (Expr.parsePostfix (n := n) (.apply e r.1 ⟨e.span.start, r.2⟩)
          left h').Returns e' rest
      | _ => e = e' ∧ t :: ts = rest := by
  rw [Expr.parsePostfix]
  cases t.token with
  | mark m =>
    cases m with
    | dot =>
      simp only
      cases hn : expectName ts with
      | error f => simp
      | ok name afterName h₁ =>
        rw [exists_returns_ok]
        cases afterName with
        | nil =>
          have h₂ := Nat.lt_trans (Nat.lt_trans h₁ (t.weightAll_lt_cons ts)) h
          simp only [beginsWith, Bool.false_eq_true, if_false, returns_parsePostfix_nil, returns_ok,
            exists_prop_of_true h₂]
        | cons u afterName =>
          simp only [beginsWith, List.tail_cons]
          by_cases hu : u.token.isMark .openParen = true
          · simp only [hu, if_true]
            cases ha : Expr.parseSequence .closeParen afterName with
            | error f => simp
            | ok r left h₂ => rw [exists_returns_ok, exists_prop_of_true]
          · simp only [hu, Bool.false_eq_true, if_false]
            rw [exists_prop_of_true]
    | openBracket =>
      simp only
      cases hk : Expr.parse ts with
      | error f => simp
      | ok key afterKey h₁ =>
        cases hc : expectMark .closeBracket afterKey with
        | error f => simp [hc]
        | ok close left h₂ =>
          simp only [exists_returns_ok, hc]
          rw [exists_prop_of_true]
    | openParen =>
      simp only
      cases ha : Expr.parseSequence .closeParen ts with
      | error f => simp
      | ok r left h₁ => rw [exists_returns_ok, exists_prop_of_true]
    | _ => exact returns_ok
  | _ => exact returns_ok

theorem returns_parseWhole :
    (Expr.parseWhole ts).Returns e rest ↔
      ∃ left s, (Expr.parse ts).Returns e left ∧ (expectEof left).Returns s rest := by
  rw [Expr.parseWhole]
  constructor
  · intro h
    split at h
    · exact absurd h returns_error
    next e' left h₁ he =>
    split at h
    · exact absurd h returns_error
    next s more h₂ hs =>
    obtain ⟨rfl, rfl⟩ := returns_ok.1 h
    exact ⟨left, s, ⟨_, he⟩, ⟨_, hs⟩⟩
  · rintro ⟨left, s, ⟨_, he⟩, ⟨_, hs⟩⟩
    simp only [he, hs]
    exact ⟨_, rfl⟩

theorem parseKey_eq_ok_iff {key : Name} :
    Name.parseKey t ts = .ok key ↔
      t.token = .ident key.text ∧ key.span = t.span ∨
      ∃ parts segments, t.token = .string parts ∧ Segment.parseAll parts = .ok segments ∧
        Segment.plainText? segments = some key.text ∧ key.span = t.span := by
  obtain ⟨text, span⟩ := key
  rw [Name.parseKey]
  split
  next name h => simp [h, eq_comm]
  next parts h =>
    cases hs : Segment.parseAll parts with
    | error f => simp [h, hs]
    | ok segments =>
      cases hp : Segment.plainText? segments <;> simp [h, hs, hp, eq_comm]
  next h₁ h₂ =>
    refine iff_of_false (fun h => ?_) ?_
    · cases h
    · rintro (⟨h, -⟩ | ⟨_, _, h, -⟩)
      · exact h₁ _ h
      · exact h₂ _ h

end ConfigExpr
