import ConfigExpr.Proofs.Formed
import ConfigExpr.Proofs.Lexemes
import ConfigExpr.Proofs.Strings

/-!
# Reading rendered expressions

`Expr.render` writes no parentheses around groups. Where none is needed, the tokens that its text
spells derive the expression (`Expr.spells_render`).
-/

namespace ConfigExpr

open Grammar

/-- The number is written as digits around a point, and these digits are read as the number. -/
def Binary64.ReadsBack (x : Binary64) : Prop :=
  ∃ sign whole fraction, Layout.literal.write x = sign ++ whole ++ '.' :: fraction ∧
    (sign = [] ∨ sign = ['-']) ∧ whole ≠ [] ∧ fraction ≠ [] ∧
    (∀ c ∈ whole ++ fraction, c.isDigit = true) ∧ ofDigits (!sign.isEmpty) whole fraction = x

namespace Expr

/-- A float literal reads back. -/
def ReadsBack : Expr → Prop
  | .float x _ => x.ReadsBack
  | _ => True

/-- A `let` and a lambda take all that follows into their body. -/
def isOpenEnded : Expr → Bool
  | .letIn .. | .lambda .. => true
  | _ => false

def isMember : Expr → Bool
  | .member .. => true
  | _ => false

/-- The receiver or callee needs parentheses: it is a `let` or a lambda, or a field that is called,
which would become a method without them. -/
def needsGroup : Expr → Bool
  | .member receiver _ _ | .method receiver _ _ _ | .index receiver _ _ => receiver.isOpenEnded
  | .apply callee _ _ => callee.isOpenEnded || callee.isMember
  | _ => false

/-- What an expression needs for its text to be read as the expression. -/
def Plain (e : Expr) : Prop :=
  e.Formed ∧ e.ReadsBack ∧ e.needsGroup = false

end Expr

/-! ## Operands -/

/-- A primary form and operators after it. -/
def Grammar.Operand (us : List Token) (e : Expr) : Prop :=
  ∃ ps os p, us = ps ++ os ∧ Primary ps p ∧ Operators p os e

theorem head?_append_ne {α : Type} {x : α} {xs ys : List α} (h : xs.head? ≠ some x)
    (h' : xs = [] → ys.head? ≠ some x) : (xs ++ ys).head? ≠ some x := by
  cases xs with
  | nil => exact h' rfl
  | cons y xs => exact h

theorem Grammar.Operators.append : ∀ {us vs : List Token} {p e e' : Expr}, Operators p us e →
    Operators e vs e' → (vs.head? = some (.mark .openParen) → e.isMember = false) →
    Operators p (us ++ vs) e'
  | _, _, _, _, _, .none _, h', _ => h'
  | _, _, _, _, _, .member name hne ho, h', hvs => by
    refine .member name (head?_append_ne hne ?_) (ho.append h' hvs)
    rintro rfl hparen
    cases ho
    cases hvs hparen
  | _, _, _, _, _, .method name ha ho, h', hvs => by
    simpa using Operators.method name ha (ho.append h' hvs)
  | _, _, _, _, _, .index hk ho, h', hvs => by
    simpa using Operators.index hk (ho.append h' hvs)
  | _, _, _, _, _, .apply ha ho, h', hvs => by
    simpa using Operators.apply ha (ho.append h' hvs)

namespace Grammar.Operand

variable {us ks as : List Token} {e key : Expr} {arguments : List Expr}

theorem expression (h : Operand us e) : Expression us e := by
  obtain ⟨ps, os, p, rfl, hp, ho⟩ := h
  exact .chain hp ho

theorem primary (h : Primary us e) : Operand us e :=
  ⟨us, [], e, by simp, h, .none e⟩

theorem append {vs : List Token} {e' : Expr} (h : Operand us e) (ho : Operators e vs e')
    (hvs : vs.head? = some (.mark .openParen) → e.isMember = false) : Operand (us ++ vs) e' := by
  obtain ⟨ps, os, p, rfl, hp, ho'⟩ := h
  exact ⟨ps, os ++ vs, p, by simp, hp, ho'.append ho hvs⟩

theorem member (h : Operand us e) (name : String) :
    Operand (us ++ [.mark .dot, .ident name]) (.member e (.of name) .nowhere) :=
  h.append (.member name nofun (.none _)) nofun

theorem method (h : Operand us e) (name : String) (ha : Arguments as arguments) :
    Operand (us ++ .mark .dot :: .ident name :: .mark .openParen :: as ++ [.mark .closeParen])
      (.method e (.of name) arguments .nowhere) := by
  simpa using h.append (.method name ha (.none _)) nofun

theorem index (h : Operand us e) (hk : Expression ks key) :
    Operand (us ++ .mark .openBracket :: ks ++ [.mark .closeBracket])
      (.index e key .nowhere) := by
  simpa using h.append (.index hk (.none _)) nofun

theorem apply (h : Operand us e) (he : e.isMember = false) (ha : Arguments as arguments) :
    Operand (us ++ .mark .openParen :: as ++ [.mark .closeParen])
      (.apply e arguments .nowhere) := by
  simpa using h.append (.apply ha (.none _)) fun _ => he

end Grammar.Operand

/-! ## Separators and quotes -/

theorem commaSeparated_cons (x y : List Char) (xs : List (List Char)) :
    commaSeparated (x :: y :: xs) = x ++ ',' :: ' ' :: commaSeparated (y :: xs) := by
  simp [commaSeparated, List.intercalate]

@[simp] theorem commaSeparated_singleton (x : List Char) : commaSeparated [x] = x := by
  simp [commaSeparated, List.intercalate]

@[simp] theorem intercalate_space_singleton (x : List Char) : [' '].intercalate [x] = x := by
  simp [List.intercalate]

theorem intercalate_space_cons (x y : List Char) (xs : List (List Char)) :
    [' '].intercalate (x :: y :: xs) = x ++ ' ' :: [' '].intercalate (y :: xs) := by
  simp [List.intercalate]

theorem Segment.head?_renderAll : ∀ ss : List Segment, (renderAll ss).head? ≠ some '"'
  | [] => nofun
  | .text s :: ss => by
    have hs := head?_escape s.toList
    have hss := head?_renderAll ss
    rw [renderAll, render]
    cases h : Text.escape s.toList with
    | nil => simpa using hss
    | cons c cs =>
      rw [h] at hs
      exact hs
  | .code e :: ss => by simp [renderAll, render]

theorem Ends.head?_ne_quote {rest : List Char} (h : Ends rest) : rest.head? ≠ some '"' := by
  intro hq
  exact (h '"' hq).2.1 rfl

theorem spells_key (key : String) (rest : List Char) :
    Spells (renderKey key ++ ':' :: rest) (':' :: rest)
      fun us => ∃ t, us = [t] ∧ Key t (.of key) := by
  unfold renderKey
  split
  next hbare =>
    refine (Spells.ident hbare (ends_cons _ _ (by decide))).mono ?_
    rintro _ rfl
    exact ⟨_, rfl, .name key⟩
  next =>
    have hquoted := Quoted.closed key.toList (':' :: rest)
    have hcolon : (':' :: rest).head? ≠ some '"' := by simp
    have hblock := ne_block (head?_escape key.toList) fun _ => hcolon
    simp only [List.cons_append, List.append_assoc, List.nil_append]
    refine (Spells.string hblock hquoted).mono ?_
    rintro _ ⟨parts, rfl, rfl⟩
    refine ⟨_, rfl, ?_⟩
    unfold StringPart.ofText
    split
    next hempty =>
      have hkey : key = "" := by simpa using hempty
      simpa [hkey] using Key.string []
    next =>
      simpa using Key.string [key]

/-! ## The text of an expression -/

/-- The tokens derive the expression, as an operand unless it is open-ended. -/
def Derives (e : Expr) (us : List Token) : Prop :=
  Expression us e.unplaced ∧ (e.isOpenEnded = false → Operand us e.unplaced)

theorem Grammar.Operand.derives {us : List Token} {e : Expr} (h : Operand us e.unplaced) :
    Derives e us :=
  ⟨h.expression, fun _ => h⟩

theorem not_derives_nil (e : Expr) : ¬ Derives e [] := by
  rintro ⟨h, -⟩
  obtain ⟨t, us, hnil, -⟩ := h.head
  cases hnil

/-- A point before a name is no point of a number. -/
theorem ends_dot {name : String} (h : isBareKey name = true) (cs : List Char) :
    Ends ('.' :: (name.toList ++ cs)) := by
  rintro _ ⟨⟩
  refine ⟨rfl, by decide, fun _ d hd => ?_⟩
  unfold isBareKey at h
  split at h
  · cases h
  next c ds hname =>
  rw [hname] at hd
  cases hd
  simp only [Bool.and_eq_true] at h
  rw [← Bool.not_eq_true]
  intro hdigit
  rw [not_isWordStart_of_isDigit hdigit] at h
  cases h.1.1

theorem nameTokens_ne_nil (name : String) (names : List String) :
    nameTokens (name :: names) ≠ [] := by
  cases names <;> exact List.cons_ne_nil _ _

theorem spells_names : ∀ {names : List Name}, (∀ n ∈ names, isBareKey n.text = true) →
    ∀ {rest : List Char}, Ends rest →
      Spells (Name.renderAll names ++ rest) rest (· = nameTokens (names.map (·.text)))
  | [], _, rest, _ => .nil rfl
  | [n], h, rest, hrest => by
    simpa [Name.renderAll, commaSeparated, List.intercalate, nameTokens] using
      Spells.ident (h n (by simp)) hrest
  | n :: n' :: names, h, rest, hrest => by
    have hothers := spells_names (fun m hm => h m (List.mem_cons_of_mem n hm)) hrest
    have hn := Spells.ident (h n (by simp))
      (ends_cons ',' (' ' :: (Name.renderAll (n' :: names) ++ rest)) (by decide))
    have hspace : Spells (' ' :: (Name.renderAll (n' :: names) ++ rest)) rest
        (· = nameTokens ((n' :: names).map (·.text))) :=
      hothers.space (nameTokens_ne_nil n'.text _).symm
    have hcomma := Spells.mark (m := .comma) (c := ',') rfl (by decide) hspace
      (q := (· = .mark .comma :: nameTokens ((n' :: names).map (·.text))))
      (fun us hus => by rw [hus])
    simp only [Name.renderAll, List.map_cons, commaSeparated_cons, List.append_assoc,
      List.cons_append] at hn hcomma ⊢
    refine hn.append hcomma ?_
    rintro _ _ rfl rfl
    rfl

namespace Spells

variable {cs rest : List Char} {p q : List Token → Prop} {a b : Mark} {o c : Char}

/-- A mark after what is spelled. -/
theorem close (ho : Mark.ofChar? c = some b) (hne : b ≠ .equals) (h : Spells cs (c :: rest) p) :
    Spells cs rest fun us => ∃ vs, us = vs ++ [.mark b] ∧ p vs := by
  refine h.append (.mark (p := (· = [])) (q := (· = [.mark b])) ho hne (.nil rfl) ?_) ?_
  · rintro _ rfl
    rfl
  · rintro us _ hus rfl
    exact ⟨us, rfl, hus⟩

/-- Marks around what is spelled. -/
theorem between (ha : Mark.ofChar? o = some a) (ho : a ≠ .equals) (hb : Mark.ofChar? c = some b)
    (hc : b ≠ .equals) (h : Spells cs (c :: rest) p) :
    Spells (o :: cs) rest fun us => ∃ vs, us = .mark a :: vs ++ [.mark b] ∧ p vs := by
  refine .mark ha ho (close hb hc h) ?_
  rintro _ ⟨vs, rfl, hvs⟩
  exact ⟨vs, rfl, hvs⟩

end Spells

theorem not_arguments_nil {e : Expr} {es : List Expr} : ¬ Arguments [] (e :: es) := by
  intro h
  generalize hus : ([] : List Token) = us at h
  cases h with
  | last he =>
    obtain ⟨t, us, rfl, -⟩ := he.head
    cases hus
  | more he => simp at hus

theorem spells_binding {b : Binding} {rest : List Char} (hname : isBareKey b.name.text = true)
    (hvalue : Spells (b.value.render ++ rest) rest (Derives b.value)) :
    Spells (b.render ++ rest) rest fun us => ∃ vs,
      us = .ident b.name.text :: .mark .equals :: vs ∧ Derives b.value vs := by
  have hequals := Spells.equals (hvalue.space (not_derives_nil b.value))
    (q := fun us => ∃ vs, us = .mark .equals :: vs ∧ Derives b.value vs)
    (fun us hus => ⟨us, rfl, hus⟩)
  obtain ⟨n, e⟩ := b
  simp only [Binding.render, List.append_assoc, List.cons_append, List.nil_append]
  refine (Spells.ident hname (ends_cons _ _ (by decide))).append
    (hequals.space (by rintro ⟨_, h, -⟩; cases h)) ?_
  rintro _ _ rfl ⟨vs, rfl, hvs⟩
  exact ⟨vs, rfl, hvs⟩

theorem spells_entry {e : Entry} {rest : List Char}
    (hvalue : Spells (e.value.render ++ rest) rest (Derives e.value)) :
    Spells (e.render ++ rest) rest fun us => ∃ t vs,
      us = t :: .mark .colon :: vs ∧ Key t e.key.unplaced ∧ Derives e.value vs := by
  have hcolon := Spells.mark (m := .colon) (c := ':') rfl (by decide)
    (hvalue.space (not_derives_nil e.value))
    (q := fun us => ∃ vs, us = .mark .colon :: vs ∧ Derives e.value vs)
    (fun us hus => ⟨us, rfl, hus⟩)
  obtain ⟨key, value⟩ := e
  simp only [Entry.render, List.append_assoc, List.cons_append, List.nil_append]
  refine (spells_key key.text _).append hcolon ?_
  rintro _ _ ⟨t, rfl, ht⟩ ⟨vs, rfl, hvs⟩
  exact ⟨t, vs, rfl, ht, hvs⟩

theorem StringPart.ofText_toList {s : String} (h : s ≠ "") : ofText s.toList = [.text s] := by
  simp [ofText, h]

/-! ## One form at a time -/

section

variable {rest : List Char} {e body key : Expr} {n : Name} {items arguments : List Expr} {s : Span}

theorem spells_float {x : Binary64} (hx : x.ReadsBack) (hrest : Ends rest) :
    Spells ((Expr.float x s).render ++ rest) rest (Derives (.float x s)) := by
  obtain ⟨sign, whole, fraction, hwrite, hsign, hwhole, hfraction, hdigits, hx⟩ := hx
  obtain ⟨d, ds, rfl⟩ := List.exists_cons_of_ne_nil hwhole
  obtain ⟨f, fs, rfl⟩ := List.exists_cons_of_ne_nil hfraction
  obtain ⟨hus, hvs⟩ := List.forall_mem_append.1 hdigits
  show Spells (Binary64.Layout.literal.write x ++ rest) rest _
  rw [hwrite]
  refine (Spells.of_spelt (.float hsign hus hvs) rfl (hrest.goesOn rfl nofun)).mono ?_
  rintro _ rfl
  rw [hx]
  exact (Operand.primary (.float x)).derives

theorem spells_template {segments : List Segment} (hrest : Ends rest)
    (hquoted : Quoted (Segment.renderAll segments ++ '"' :: rest) rest
      (Segments · (segments.map Segment.unplaced))) :
    Spells ((Expr.template segments s).render ++ rest) rest (Derives (.template segments s)) := by
  have hblock := ne_block (Segment.head?_renderAll segments) fun _ => hrest.head?_ne_quote
  show Spells ('"' :: Segment.renderAll segments ++ ['"'] ++ rest) rest _
  simp only [List.cons_append, List.append_assoc, List.nil_append]
  refine (Spells.string hblock hquoted).mono ?_
  rintro _ ⟨parts, rfl, hparts⟩
  have hprimary := Operand.primary (.string parts hparts)
  exact Operand.derives (by rwa [Expr.unplaced_template])

theorem spells_letIn {bindings : List Binding} (hne : bindings ≠ [])
    (hbindings : ∀ {rest}, Ends rest →
      Spells ([' '].intercalate (Binding.renderAll bindings) ++ rest) rest
        (Bindings · (bindings.map Binding.unplaced)))
    (hbody : Spells (body.render ++ rest) rest (Derives body)) :
    Spells ((Expr.letIn bindings body s).render ++ rest) rest
      (Derives (.letIn bindings body s)) := by
  have hin : Spells (Keyword.inWord.text.toList ++ ' ' :: (body.render ++ rest)) rest
      fun us => ∃ es, us = .keyword .inWord :: es ∧ Derives body es := by
    refine (Spells.keyword .inWord (ends_cons _ _ (by decide))).append
      (hbody.space (not_derives_nil body)) ?_
    rintro _ es rfl hes
    exact ⟨es, rfl, hes⟩
  have hafter := (hbindings (ends_cons _ _ (by decide))).append
    (hin.space (by rintro ⟨_, h, -⟩; cases h))
    (r := fun us => ∃ bs es, us = bs ++ .keyword .inWord :: es ∧
      Bindings bs (bindings.map Binding.unplaced) ∧ Derives body es)
    (by rintro bs _ hbs ⟨es, rfl, hes⟩; exact ⟨bs, es, rfl, hbs, hes⟩)
  show Spells (['l', 'e', 't', ' '] ++ [' '].intercalate (Binding.renderAll bindings) ++
    [' ', 'i', 'n', ' '] ++ body.render ++ rest) rest _
  simp only [List.cons_append, List.append_assoc, List.nil_append]
  refine (Spells.keyword .letWord (ends_cons _ _ (by decide))).append
    (hafter.space (by rintro ⟨bs, es, h, -⟩; cases bs <;> cases h)) ?_
  rintro _ _ rfl ⟨bs, es, rfl, hbs, hes⟩
  refine ⟨?_, nofun⟩
  rw [Expr.unplaced_letIn]
  exact .letIn (by simpa using hne) hbs hes.1

theorem spells_lambda {parameters : List Name} (hnodup : (parameters.map (·.text)).Nodup)
    (hnames : ∀ n ∈ parameters, isBareKey n.text = true)
    (hbody : Spells (body.render ++ rest) rest (Derives body)) :
    Spells ((Expr.lambda parameters body s).render ++ rest) rest
      (Derives (.lambda parameters body s)) := by
  have harrow := Spells.arrow (hbody.space (not_derives_nil body))
    (q := fun us => ∃ es, us = .mark .arrow :: es ∧ Derives body es)
    (fun es hes => ⟨es, rfl, hes⟩)
  have hparameters := Spells.between (a := .openParen) (o := '(') rfl (by decide)
    (b := .closeParen) (c := ')') rfl (by decide)
    (spells_names hnames (ends_cons ')' (' ' :: '=' :: '>' :: ' ' :: (body.render ++ rest))
      (by decide)))
  show Spells ('(' :: Name.renderAll parameters ++ [')', ' ', '=', '>', ' '] ++ body.render ++
    rest) rest _
  simp only [List.cons_append, List.append_assoc, List.nil_append]
  refine hparameters.append (harrow.space (by rintro ⟨_, h, -⟩; cases h)) ?_
  rintro _ _ ⟨_, rfl, rfl⟩ ⟨es, rfl, hes⟩
  refine ⟨?_, nofun⟩
  rw [Expr.unplaced_lambda, Name.map_unplaced]
  simpa using Expression.lambda _ hnodup hes.1

theorem spells_list
    (hitems : Spells (commaSeparated (Expr.renderAll items) ++ ']' :: rest) (']' :: rest)
      (Arguments · (items.map Expr.unplaced))) :
    Spells ((Expr.list items s).render ++ rest) rest (Derives (.list items s)) := by
  show Spells ('[' :: commaSeparated (Expr.renderAll items) ++ [']'] ++ rest) rest _
  simp only [List.cons_append, List.append_assoc, List.nil_append]
  refine (Spells.between rfl (by decide) rfl (by decide) hitems).mono ?_
  rintro _ ⟨vs, rfl, hvs⟩
  have hprimary := Operand.primary (.list hvs)
  exact Operand.derives (by rwa [Expr.unplaced_list])

theorem spells_map {entries : List Entry}
    (hentries : Spells (commaSeparated (Entry.renderAll entries) ++ '\x7d' :: rest)
      ('\x7d' :: rest) (Entries · (entries.map Entry.unplaced))) :
    Spells ((Expr.map entries s).render ++ rest) rest (Derives (.map entries s)) := by
  show Spells ('\x7b' :: commaSeparated (Entry.renderAll entries) ++ ['\x7d'] ++ rest) rest _
  simp only [List.cons_append, List.append_assoc, List.nil_append]
  refine (Spells.between rfl (by decide) rfl (by decide) hentries).mono ?_
  rintro _ ⟨vs, rfl, hvs⟩
  have hprimary := Operand.primary (.map hvs)
  exact Operand.derives (by rwa [Expr.unplaced_map])

theorem spells_member (hn : isBareKey n.text = true) (he : e.isOpenEnded = false)
    (hreceiver : ∀ {rest}, Ends rest → Spells (e.render ++ rest) rest (Derives e))
    (hrest : Ends rest) :
    Spells ((Expr.member e n s).render ++ rest) rest (Derives (.member e n s)) := by
  have hname := Spells.mark (m := .dot) (c := '.') rfl (by decide)
    (Spells.ident hn hrest) (q := (· = [.mark .dot, .ident n.text]))
    (fun us hus => by rw [hus])
  show Spells (e.render ++ '.' :: n.text.toList ++ rest) rest _
  simp only [List.cons_append, List.append_assoc]
  refine (hreceiver (ends_dot hn rest)).append hname ?_
  rintro us _ hus rfl
  exact Operand.derives ((hus.2 he).member n.text)

theorem spells_method (hn : isBareKey n.text = true) (he : e.isOpenEnded = false)
    (hreceiver : ∀ {rest}, Ends rest → Spells (e.render ++ rest) rest (Derives e))
    (harguments : Spells (commaSeparated (Expr.renderAll arguments) ++ ')' :: rest)
      (')' :: rest) (Arguments · (arguments.map Expr.unplaced))) :
    Spells ((Expr.method e n arguments s).render ++ rest) rest
      (Derives (.method e n arguments s)) := by
  have hcall := (Spells.ident hn (ends_cons _ _ (by decide))).append
    (.between (a := .openParen) (o := '(') rfl (by decide) (b := .closeParen) rfl (by decide)
      harguments)
    (r := fun us => ∃ vs, us = .ident n.text :: .mark .openParen :: vs ++ [.mark .closeParen] ∧
      Arguments vs (arguments.map Expr.unplaced))
    (by rintro _ _ rfl ⟨vs, rfl, hvs⟩; exact ⟨vs, rfl, hvs⟩)
  have hdot := Spells.mark (m := .dot) (c := '.') rfl (by decide) hcall
    (q := fun us => ∃ vs, us = .mark .dot :: .ident n.text :: .mark .openParen :: vs ++
      [.mark .closeParen] ∧ Arguments vs (arguments.map Expr.unplaced))
    (by rintro _ ⟨vs, rfl, hvs⟩; exact ⟨vs, rfl, hvs⟩)
  have hbefore := hreceiver (ends_dot hn
    ('(' :: (commaSeparated (Expr.renderAll arguments) ++ ')' :: rest)))
  show Spells (e.render ++ '.' :: n.text.toList ++
    '(' :: commaSeparated (Expr.renderAll arguments) ++ [')'] ++ rest) rest _
  simp only [List.cons_append, List.append_assoc, List.nil_append]
  refine hbefore.append hdot ?_
  rintro us _ hus ⟨vs, rfl, hvs⟩
  have hmethod := (hus.2 he).method n.text hvs
  exact Operand.derives (by simpa [Name.unplaced_eq] using hmethod)

theorem spells_index (he : e.isOpenEnded = false)
    (hreceiver : ∀ {rest}, Ends rest → Spells (e.render ++ rest) rest (Derives e))
    (hkey : Spells (key.render ++ ']' :: rest) (']' :: rest) (Derives key)) :
    Spells ((Expr.index e key s).render ++ rest) rest (Derives (.index e key s)) := by
  have hbefore := hreceiver (ends_cons '[' (key.render ++ ']' :: rest) (by decide))
  show Spells (e.render ++ '[' :: key.render ++ [']'] ++ rest) rest _
  simp only [List.cons_append, List.append_assoc, List.nil_append]
  refine hbefore.append (.between rfl (by decide) rfl (by decide) hkey) ?_
  rintro us _ hus ⟨ks, rfl, hks⟩
  have hindex := (hus.2 he).index hks.1
  exact Operand.derives (by simpa using hindex)

theorem spells_apply (he : e.isOpenEnded = false) (hmember : e.isMember = false)
    (hcallee : ∀ {rest}, Ends rest → Spells (e.render ++ rest) rest (Derives e))
    (harguments : Spells (commaSeparated (Expr.renderAll arguments) ++ ')' :: rest)
      (')' :: rest) (Arguments · (arguments.map Expr.unplaced))) :
    Spells ((Expr.apply e arguments s).render ++ rest) rest (Derives (.apply e arguments s)) := by
  have hunplaced : e.unplaced.isMember = false := by
    cases e <;> simp_all [Expr.isMember]
  have hbefore := hcallee
    (ends_cons '(' (commaSeparated (Expr.renderAll arguments) ++ ')' :: rest) (by decide))
  show Spells (e.render ++ '(' :: commaSeparated (Expr.renderAll arguments) ++ [')'] ++ rest)
    rest _
  simp only [List.cons_append, List.append_assoc, List.nil_append]
  refine hbefore.append (.between rfl (by decide) rfl (by decide) harguments) ?_
  rintro us _ hus ⟨vs, rfl, hvs⟩
  have happly := (hus.2 he).apply hunplaced hvs
  exact Operand.derives (by simpa using happly)

end

/-! ## All forms -/

mutual

theorem Expr.spells_render : ∀ {e : Expr}, e.Everywhere Expr.Plain →
    ∀ {rest : List Char}, Ends rest → Spells (e.render ++ rest) rest (Derives e)
  | .int v _, _, rest, hrest =>
    (Spells.int v hrest).mono fun us hus => by
      subst hus
      exact (Operand.primary (.int v)).derives
  | .float _ _, h, rest, hrest => spells_float h.self.2.1 hrest
  | .bool true _, _, rest, hrest =>
    (Spells.keyword .trueWord hrest).mono fun us hus => by
      subst hus
      exact (Operand.primary .trueWord).derives
  | .bool false _, _, rest, hrest =>
    (Spells.keyword .falseWord hrest).mono fun us hus => by
      subst hus
      exact (Operand.primary .falseWord).derives
  | .name n, h, rest, hrest =>
    (Spells.ident h.self.1 hrest).mono fun us hus => by
      subst hus
      exact (Operand.primary (.name n.text)).derives
  | .template segments _, h, rest, hrest => by
    have hcode : ∀ e, .code e ∈ segments → e.Everywhere Expr.Plain :=
      fun e he => h.part (List.mem_filterMap.2 ⟨.code e, he, rfl⟩)
    exact spells_template hrest (quoted_segments h.self.1 hcode hrest)
  | .letIn bindings body _, h, rest, hrest => by
    obtain ⟨hne, hnames⟩ := h.self.1
    have hbindings : ∀ b ∈ bindings, isBareKey b.name.text = true ∧
        b.value.Everywhere Expr.Plain := by
      intro b hb
      have hpart : b.value ∈ bindings.map (·.value) := List.mem_map.2 ⟨b, hb, rfl⟩
      exact ⟨hnames b hb, h.part (List.mem_append_left _ hpart)⟩
    exact spells_letIn hne (spells_bindings hbindings)
      (Expr.spells_render (h.part (x := body) (by simp [Expr.parts])) hrest)
  | .lambda _ body _, h, rest, hrest => by
    obtain ⟨hnodup, hnames⟩ := h.self.1
    exact spells_lambda hnodup hnames
      (Expr.spells_render (h.part (x := body) (by simp [Expr.parts])) hrest)
  | .list items _, h, rest, _ =>
    spells_list (spells_arguments (fun e he => h.part he) (ends_cons ']' rest (by decide)))
  | .map entries _, h, rest, _ =>
    spells_map (spells_entries (fun e he => h.part (List.mem_map.2 ⟨e, he, rfl⟩))
      (ends_cons '\x7d' rest (by decide)))
  | .member receiver _ _, h, rest, hrest =>
    spells_member h.self.1 h.self.2.2 (Expr.spells_render (h.part List.mem_cons_self)) hrest
  | .method receiver _ arguments _, h, rest, _ =>
    spells_method h.self.1 h.self.2.2 (Expr.spells_render (h.part List.mem_cons_self))
      (spells_arguments (fun e he => h.part (List.mem_cons_of_mem receiver he))
        (ends_cons ')' rest (by decide)))
  | .index receiver key _, h, rest, _ =>
    spells_index h.self.2.2 (Expr.spells_render (h.part List.mem_cons_self))
      (Expr.spells_render (h.part (x := key) (by simp [Expr.parts]))
        (ends_cons ']' rest (by decide)))
  | .apply callee arguments _, h, rest, _ => by
    have hgroup := h.self.2.2
    simp only [Expr.needsGroup, Bool.or_eq_false_iff] at hgroup
    exact spells_apply hgroup.1 hgroup.2 (Expr.spells_render (h.part List.mem_cons_self))
      (spells_arguments (fun e he => h.part (List.mem_cons_of_mem callee he))
        (ends_cons ')' rest (by decide)))

theorem spells_arguments : ∀ {es : List Expr}, (∀ e ∈ es, e.Everywhere Expr.Plain) →
    ∀ {rest : List Char}, Ends rest →
      Spells (commaSeparated (Expr.renderAll es) ++ rest) rest (Arguments · (es.map Expr.unplaced))
  | [], _, rest, hrest => .nil .none
  | [e], h, rest, hrest => by
    have he := Expr.spells_render (h e (by simp)) hrest
    simp only [Expr.renderAll, commaSeparated_singleton, List.map_cons, List.map_nil]
    exact he.mono fun us hus => .last hus.1
  | e :: e' :: es, h, rest, hrest => by
    have he := Expr.spells_render (h e (by simp))
      (ends_cons ',' (' ' :: (commaSeparated (Expr.renderAll (e' :: es)) ++ rest)) (by decide))
    have hothers := (spells_arguments (fun x hx => h x (List.mem_cons_of_mem e hx)) hrest).space
      not_arguments_nil
    simp only [Expr.renderAll, commaSeparated_cons, List.append_assoc, List.cons_append]
      at he hothers ⊢
    refine he.append (.mark (m := .comma) rfl (by decide) hothers
      (q := fun us => ∃ vs, us = .mark .comma :: vs ∧ Arguments vs ((e' :: es).map Expr.unplaced))
      fun us hus => ⟨us, rfl, hus⟩) ?_
    rintro us _ hus ⟨vs, rfl, hvs⟩
    exact .more hus.1 hvs

theorem spells_bindings : ∀ {bs : List Binding},
    (∀ b ∈ bs, isBareKey b.name.text = true ∧ b.value.Everywhere Expr.Plain) →
    ∀ {rest : List Char}, Ends rest →
      Spells ([' '].intercalate (Binding.renderAll bs) ++ rest) rest
        (Bindings · (bs.map Binding.unplaced))
  | [], _, rest, hrest => .nil .none
  | [⟨n, e⟩], h, rest, hrest => by
    obtain ⟨hname, hvalue⟩ := h ⟨n, e⟩ (by simp)
    have hb := spells_binding hname (Expr.spells_render hvalue hrest)
    simp only [Binding.renderAll, intercalate_space_singleton, List.map_cons, List.map_nil]
    refine hb.mono ?_
    rintro _ ⟨us, rfl, hus⟩
    simpa [Name.unplaced_eq] using Bindings.more n.text hus.1 .none
  | ⟨n, e⟩ :: b' :: bs, h, rest, hrest => by
    obtain ⟨hname, hvalue⟩ := h ⟨n, e⟩ (by simp)
    have hb := spells_binding hname (Expr.spells_render hvalue
      (ends_cons ' ' ([' '].intercalate (Binding.renderAll (b' :: bs)) ++ rest) (by decide)))
    have hothers := (spells_bindings (fun x hx => h x (List.mem_cons_of_mem _ hx)) hrest).space
      (by rintro ⟨⟩)
    simp only [Binding.renderAll, intercalate_space_cons, List.append_assoc, List.cons_append]
      at hb hothers ⊢
    refine hb.append hothers ?_
    rintro _ vs ⟨us, rfl, hus⟩ hvs
    simpa [Name.unplaced_eq] using Bindings.more n.text hus.1 hvs

theorem spells_entries : ∀ {es : List Entry}, (∀ e ∈ es, e.value.Everywhere Expr.Plain) →
    ∀ {rest : List Char}, Ends rest →
      Spells (commaSeparated (Entry.renderAll es) ++ rest) rest
        (Entries · (es.map Entry.unplaced))
  | [], _, rest, hrest => .nil .none
  | [⟨n, e⟩], h, rest, hrest => by
    have he := spells_entry (e := ⟨n, e⟩) (Expr.spells_render (h ⟨n, e⟩ (by simp)) hrest)
    simp only [Entry.renderAll, commaSeparated_singleton, List.map_cons, List.map_nil]
    refine he.mono ?_
    rintro _ ⟨t, us, rfl, ht, hus⟩
    simpa using Entries.more ht hus.1 .none .none
  | ⟨n, e⟩ :: e' :: es, h, rest, hrest => by
    have he := spells_entry (e := ⟨n, e⟩) (Expr.spells_render (h ⟨n, e⟩ (by simp))
      (ends_cons ',' (' ' :: (commaSeparated (Entry.renderAll (e' :: es)) ++ rest)) (by decide)))
    have hothers := (spells_entries (fun x hx => h x (List.mem_cons_of_mem _ hx)) hrest).space
      (by rintro ⟨⟩)
    simp only [Entry.renderAll, commaSeparated_cons, List.append_assoc, List.cons_append]
      at he hothers ⊢
    refine he.append (.mark (m := .comma) rfl (by decide) hothers
      (q := fun us => ∃ vs, us = .mark .comma :: vs ∧ Entries vs ((e' :: es).map Entry.unplaced))
      fun us hus => ⟨us, rfl, hus⟩) ?_
    rintro _ _ ⟨t, us, rfl, ht, hus⟩ ⟨vs, rfl, hvs⟩
    simpa using Entries.more ht hus.1 .comma hvs

theorem quoted_segments : ∀ {ss : List Segment}, Segment.Cut ss →
    (∀ e, .code e ∈ ss → e.Everywhere Expr.Plain) → ∀ {rest : List Char}, Ends rest →
      Quoted (Segment.renderAll ss ++ '"' :: rest) rest (Segments · (ss.map Segment.unplaced))
  | [], _, _, rest, _ => by
    refine (Quoted.closed [] rest).mono ?_
    rintro _ rfl
    exact .none
  | [.text s], hcut, _, rest, _ => by
    simp only [Segment.renderAll, Segment.render, List.append_nil]
    refine (Quoted.closed s.toList rest).mono ?_
    rintro _ rfl
    rw [StringPart.ofText_toList (by simpa using hcut.1)]
    exact .text .none
  | .code e :: ss, hcut, h, rest, hrest => by
    have he := Expr.spells_render (h e (by simp))
      (ends_cons '\x7d' (Segment.renderAll ss ++ '"' :: rest) (by decide))
    have hss := quoted_segments hcut.2.2 (fun x hx => h x (List.mem_cons_of_mem _ hx)) hrest
    simp only [Segment.renderAll, Segment.render, List.append_assoc, List.cons_append,
      List.nil_append]
    refine Quoted.code [] he (fun us hus => hus.1.balanced) hss ?_
    intro us tokens others htokens hus hothers
    exact .code htokens hus.1 hothers
  | .text s :: .code e :: ss, hcut, h, rest, hrest => by
    have he := Expr.spells_render (h e (by simp))
      (ends_cons '\x7d' (Segment.renderAll ss ++ '"' :: rest) (by decide))
    have hss := quoted_segments hcut.2.2.2.2
      (fun x hx => h x (List.mem_cons_of_mem _ (List.mem_cons_of_mem _ hx))) hrest
    simp only [Segment.renderAll, Segment.render, List.append_assoc, List.cons_append,
      List.nil_append]
    refine Quoted.code s.toList he (fun us hus => hus.1.balanced) hss ?_
    intro us tokens others htokens hus hothers
    rw [StringPart.ofText_toList (by simpa using hcut.1)]
    exact .text (.code htokens hus.1 hothers)
  | .text _ :: .text _ :: _, hcut, _, _, _ => absurd rfl (hcut.2.1 rfl)

end

end ConfigExpr
