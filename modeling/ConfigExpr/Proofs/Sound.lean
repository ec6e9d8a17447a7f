import ConfigExpr.Proofs.Distinct
import ConfigExpr.Proofs.Grammar
import ConfigExpr.Proofs.Proper
import ConfigExpr.Proofs.Steps

/-!
# What the parser accepts

A parser that returns has taken tokens off the front of its list which derive, by the rule of the
grammar it is named after, the tree it returns (`sound_parse`). Each rule is settled under the
assumption that `Expr.parse` is sound on lighter lists.
-/

namespace ConfigExpr

open Grammar Outcome

/-- Nothing follows the end mark of a list. -/
theorem Spanned.Ended.nil_of_eof {us more : List Spanned} {t : Spanned}
    (h : Ended (us ++ t :: more)) (ht : t.token = .eof) : more = [] := by
  induction us with
  | nil =>
    rcases h with ⟨-, hm⟩ | ⟨hp, -⟩
    · exact hm
    · rw [proper_iff, ht] at hp
      exact hp.elim
  | cons u us ih =>
    rcases h with ⟨-, hm⟩ | ⟨-, h⟩
    · simp at hm
    · exact ih h

/-- Proper tokens and end marks. -/
def Spanned.ProperList (ts : List Spanned) : Prop :=
  ∀ t ∈ ts, t.token = .eof ∨ t.token.Proper

namespace Spanned

variable {t : Spanned} {ts us : List Spanned}

theorem ProperList.tail (h : ProperList (t :: ts)) : ProperList ts :=
  fun u hu => h u (List.mem_cons_of_mem t hu)

theorem ProperList.right (h : ProperList (ts ++ us)) : ProperList us :=
  fun u hu => h u (List.mem_append_right ts hu)

theorem Ended.properList (h : Ended ts) : ProperList ts := by
  obtain ⟨body, z, rfl, hz, hbody⟩ := ended_iff.1 h
  intro t ht
  rcases List.mem_append.1 ht with ht | ht
  · exact .inr (hbody t ht)
  · rw [List.mem_singleton.1 ht]
    exact .inl hz

end Spanned

/-- The parser sees all of them. -/
theorem Program.withoutComments_of_proper {ts : List Spanned} (h : Spanned.ProperList ts) :
    withoutComments ts = ts := by
  refine withoutComments_eq_self fun hmem => ?_
  obtain ⟨t, ht, hcomment⟩ := List.mem_map.1 hmem
  have hproper := h t ht
  rw [hcomment] at hproper
  rcases hproper with heof | hproper
  · cases heof
  · exact hproper

def Token.isOperator : Token → Bool
  | .mark .dot | .mark .openBracket | .mark .openParen => true
  | _ => false

theorem Token.isOperator_iff {t : Token} :
    t.isOperator = true ↔ t = .mark .dot ∨ t = .mark .openBracket ∨ t = .mark .openParen := by
  cases t with
  | mark m => cases m <;> simp [isOperator]
  | _ => simp [isOperator]

/-- No operator follows. -/
def Stops (rest : List Spanned) : Prop :=
  ∀ t ∈ rest.head?, t.token.isOperator = false

/-- The tokens taken when a parser leaves `rest` of `ts`. -/
def Takes (ts rest : List Spanned) (p : List Token → Prop) : Prop :=
  ∃ us, ts = us ++ rest ∧ p (us.map (·.token))

namespace Takes

variable {t u v : Spanned} {ts left rest : List Spanned} {p q key : Expr} {name : String}
  {arguments : List Expr}

theorem properList {f : List Token → Prop} (h : Takes ts rest f) (hp : Spanned.ProperList ts) :
    Spanned.ProperList rest := by
  obtain ⟨us, rfl, -⟩ := h
  exact hp.right

/-! ### Operators after an operand -/

theorem member (ht : t.token = .mark .dot) (hu : u.token = .ident name)
    (hts : beginsWith .openParen ts ≠ true)
    (h : Takes ts rest (Operators (.member p (.of name) .nowhere) · q)) :
    Takes (t :: u :: ts) rest (Operators p · q) := by
  obtain ⟨us, rfl, hops⟩ := h
  have hhead : (us.map (·.token)).head? ≠ some (.mark .openParen) := by
    cases us with
    | nil => nofun
    | cons v us =>
      simp only [List.map_cons, List.head?_cons, ne_eq, Option.some.injEq]
      intro hv
      exact hts (Token.isMark_iff.2 hv)
  refine ⟨t :: u :: us, rfl, ?_⟩
  simpa [ht, hu] using Operators.member name hhead hops

theorem method (ht : t.token = .mark .dot) (hu : u.token = .ident name)
    (hv : v.token = .mark .openParen)
    (ha : Takes ts left fun us => ∃ as, us = as ++ [.mark .closeParen] ∧ Arguments as arguments)
    (h : Takes left rest (Operators (.method p (.of name) arguments .nowhere) · q)) :
    Takes (t :: u :: v :: ts) rest (Operators p · q) := by
  obtain ⟨us, rfl, as, has, hargs⟩ := ha
  obtain ⟨vs, rfl, hops⟩ := h
  refine ⟨t :: u :: v :: us ++ vs, by simp, ?_⟩
  simpa [ht, hu, hv, has] using Operators.method name hargs hops

theorem index (ht : t.token = .mark .openBracket) (hu : u.token = .mark .closeBracket)
    (hk : Takes ts (u :: left) (Expression · key))
    (h : Takes left rest (Operators (.index p key .nowhere) · q)) :
    Takes (t :: ts) rest (Operators p · q) := by
  obtain ⟨us, rfl, hkey⟩ := hk
  obtain ⟨vs, rfl, hops⟩ := h
  refine ⟨t :: us ++ u :: vs, by simp, ?_⟩
  simpa [ht, hu] using Operators.index hkey hops

theorem apply (ht : t.token = .mark .openParen)
    (ha : Takes ts left fun us => ∃ as, us = as ++ [.mark .closeParen] ∧ Arguments as arguments)
    (h : Takes left rest (Operators (.apply p arguments .nowhere) · q)) :
    Takes (t :: ts) rest (Operators p · q) := by
  obtain ⟨us, rfl, as, has, hargs⟩ := ha
  obtain ⟨vs, rfl, hops⟩ := h
  refine ⟨t :: us ++ vs, by simp, ?_⟩
  simpa [ht, has] using Operators.apply hargs hops

end Takes

/-- An expression is taken whole: no operator is left after it. -/
def Expr.Sound (ts : List Spanned) : Prop :=
  Spanned.ProperList ts → ∀ {e rest}, (Expr.parse ts).Returns e rest →
    Takes ts rest (Expression · e.unplaced) ∧ Stops rest

theorem parseAll_plain {parts : List StringPart} {segments : List Segment} {text : String}
    (hs : Segment.parseAll parts = .ok segments) (ht : Segment.plainText? segments = some text) :
    ∃ texts, parts = texts.map .text ∧ String.join texts = text := by
  induction parts generalizing segments text with
  | nil =>
    rw [Segment.parseAll] at hs
    cases hs
    cases ht
    exact ⟨[], rfl, rfl⟩
  | cons p parts ih =>
    cases p with
    | text s =>
      obtain ⟨others, ho, rfl⟩ := parseAll_segments_text.1 hs
      obtain ⟨text', ht', rfl⟩ := Option.map_eq_some_iff.1 ht
      obtain ⟨texts, rfl, rfl⟩ := ih ho ht'
      exact ⟨s :: texts, rfl, by simp⟩
    | code tokens =>
      obtain ⟨e, left, s, more, others, -, -, -, rfl⟩ := parseAll_segments_code.1 hs
      cases ht

theorem sound_parseKey {t : Spanned} {ts : List Spanned} {key : Name}
    (h : Name.parseKey t ts = .ok key) : Key t.token key.unplaced := by
  rw [Name.unplaced_eq]
  rcases parseKey_eq_ok_iff.1 h with ⟨ht, -⟩ | ⟨parts, segments, ht, hs, hp, -⟩
  · rw [ht]
    exact .name key.text
  · obtain ⟨texts, rfl, hjoin⟩ := parseAll_plain hs hp
    rw [ht, ← hjoin]
    exact .string texts

theorem sound_parameters : ∀ {ts rest : List Spanned} {names : List Name},
    (parameters ts).Returns names rest →
      Takes ts rest fun us => names ≠ [] ∧
        us = nameTokens (names.map (·.text)) ++ [.mark .closeParen]
  | [], _, _, h => absurd h not_returns_parameters_nil
  | t :: ts, rest, names, h => by
    obtain ⟨name, after, hn, h⟩ := returns_parameters.1 h
    obtain ⟨_, hcons, ht, -⟩ := returns_expectName.1 hn
    cases hcons
    cases ts with
    | nil => exact h.elim
    | cons u left =>
      dsimp only at h
      split at h
      next hu =>
        obtain ⟨others, ho, rfl⟩ := h
        obtain ⟨us, rfl, hne, hus⟩ := sound_parameters ho
        refine ⟨t :: u :: us, rfl, by simp, ?_⟩
        cases others with
        | nil => exact absurd rfl hne
        | cons n others => simp [nameTokens, ht, Token.isMark_iff.1 hu, hus]
      split at h
      next hu =>
        obtain ⟨rfl, rfl⟩ := h
        exact ⟨[t, u], rfl, by simp, by simp [nameTokens, ht, Token.isMark_iff.1 hu]⟩
      exact h.elim

theorem skipComma_separator (ts : List Spanned) :
    ∃ us, ts = us ++ skipComma ts ∧ Separator (us.map (·.token)) := by
  cases ts with
  | nil => exact ⟨[], rfl, .none⟩
  | cons t ts =>
    rw [skipComma]
    split
    next h => exact ⟨[t], rfl, by simpa [Token.isMark_iff.1 h] using .comma⟩
    next => exact ⟨[], rfl, .none⟩

section

variable {n : Nat} (ih : ∀ {us}, Spanned.weightAll us < n → Expr.Sound us)

include ih

theorem sound_parseSequence {close : Mark} :
    ∀ {ts : List Spanned}, Spanned.weightAll ts < n → Spanned.ProperList ts →
      ∀ {items stop rest}, (Expr.parseSequence close ts).Returns (items, stop) rest →
      Takes ts rest fun us => ∃ as, us = as ++ [.mark close] ∧
        Arguments as (items.map Expr.unplaced)
  | [], _, _, _, _, _, h => absurd h not_returns_parseSequence_nil
  | t :: ts, hn, hp, items, stop, rest, h => by
    rw [returns_parseSequence] at h
    split at h
    next hc =>
      obtain ⟨he, rfl⟩ := h
      cases he
      exact ⟨[t], rfl, [], by simp [Token.isMark_iff.1 hc], .none⟩
    obtain ⟨item, after, hi, h⟩ := h
    obtain ⟨⟨us, hus, hitem⟩, -⟩ := ih hn hp hi
    cases after with
    | nil => exact h.elim
    | cons u left =>
      have hleft := hi.lighter
      dsimp only at h
      rw [hus] at hp ⊢
      split at h
      next hu =>
        obtain ⟨others, ho, rfl⟩ := h
        obtain ⟨vs, rfl, as, hvs, hothers⟩ := sound_parseSequence
          (Nat.lt_trans (Nat.lt_trans (u.weightAll_lt_cons left) hleft) hn) hp.right.tail ho
        refine ⟨us ++ u :: vs, by simp, us.map (·.token) ++ .mark .comma :: as, ?_, ?_⟩
        · simp [Token.isMark_iff.1 hu, hvs]
        · exact .more hitem hothers
      split at h
      next hu =>
        obtain ⟨he, rfl⟩ := h
        cases he
        refine ⟨us ++ [u], by simp, us.map (·.token), ?_, .last hitem⟩
        simp [Token.isMark_iff.1 hu]
      exact h.elim
termination_by ts => Spanned.weightAll ts
decreasing_by exact Nat.lt_trans (u.weightAll_lt_cons left) hleft

theorem sound_parseAll_entries : ∀ {ts : List Spanned},
    Spanned.weightAll ts < n → Spanned.ProperList ts →
      ∀ {entries stop rest}, (Entry.parseAll ts).Returns (entries, stop) rest →
      Takes ts rest fun us => ∃ as, us = as ++ [.mark .closeBrace] ∧
        Entries as (entries.map Entry.unplaced)
  | [], _, _, _, _, _, h => absurd h not_returns_parseAll_entries_nil
  | t :: ts, hn, hp, entries, stop, rest, h => by
    rw [returns_parseAll_entries] at h
    split at h
    next hc =>
      obtain ⟨he, rfl⟩ := h
      cases he
      exact ⟨[t], rfl, [], by simp [Token.isMark_iff.1 hc], .none⟩
    obtain ⟨key, hk, s, afterColon, hs, value, left, hv, others, ho, rfl⟩ := h
    have hcolon := Nat.lt_trans hs.lighter (t.weightAll_lt_cons ts)
    have hleft := Nat.lt_of_le_of_lt (weightAll_skipComma_le left)
      (Nat.lt_trans hv.lighter hcolon)
    obtain ⟨c, rfl, hc, -⟩ := returns_expectMark.1 hs
    obtain ⟨⟨us, rfl, hvalue⟩, -⟩ := ih (Nat.lt_trans hcolon hn) hp.tail.tail hv
    obtain ⟨comma, hcomma, hsep⟩ := skipComma_separator left
    have hp' : Spanned.ProperList (skipComma left) := by
      have := hp.tail.tail.right
      rw [hcomma] at this
      exact this.right
    obtain ⟨vs, hvs, as, hvs', hothers⟩ :=
      sound_parseAll_entries (Nat.lt_trans hleft hn) hp' ho
    refine ⟨t :: c :: us ++ comma ++ vs, ?_, _, ?_, .more (sound_parseKey hk) hvalue hsep hothers⟩
    · simp only [List.cons_append, List.append_assoc, ← hvs, ← hcomma]
    · simp [hc, hvs']
termination_by ts => Spanned.weightAll ts

theorem sound_parseAll_bindings {m : Nat} : ∀ {ts : List Spanned} {h : Spanned.weightAll ts < m},
    Spanned.weightAll ts < n → Spanned.ProperList ts →
      ∀ {bindings rest}, (Binding.parseAll ts h).Returns bindings rest →
      Takes ts rest (Bindings · (bindings.map Binding.unplaced))
  | [], _, _, _, _, _, h => by
    obtain ⟨rfl, rfl⟩ := returns_parseAll_bindings_nil.1 h
    exact ⟨[], rfl, .none⟩
  | t :: ts, _, hn, hp, bindings, rest, h => by
    rw [returns_parseAll_bindings] at h
    split at h
    next name ht =>
      obtain ⟨s, afterEquals, hs, value, left, hv, h', others, ho, rfl⟩ := h
      have hequals := Nat.lt_trans hs.lighter (t.weightAll_lt_cons ts)
      have hleft := Nat.lt_trans hv.lighter hequals
      obtain ⟨c, rfl, hc, -⟩ := returns_expectMark.1 hs
      obtain ⟨⟨us, rfl, hvalue⟩, -⟩ := ih (Nat.lt_trans hequals hn) hp.tail.tail hv
      obtain ⟨vs, rfl, hothers⟩ :=
        sound_parseAll_bindings (Nat.lt_trans hleft hn) hp.tail.tail.right ho
      refine ⟨t :: c :: us ++ vs, by simp, ?_⟩
      simpa [ht, hc] using Bindings.more name hvalue hothers
    next =>
      obtain ⟨rfl, rfl⟩ := h
      exact ⟨[], rfl, .none⟩
termination_by ts => Spanned.weightAll ts

theorem sound_parseAll_segments : ∀ {parts : List StringPart},
    StringPart.weightAll parts ≤ n → StringPart.ProperAll parts →
      ∀ {segments}, Segment.parseAll parts = .ok segments →
      Segments parts (segments.map Segment.unplaced)
  | [], _, _, segments, h => by
    rw [Segment.parseAll] at h
    cases h
    exact .none
  | .text s :: parts, hn, hp, segments, h => by
    obtain ⟨others, ho, rfl⟩ := parseAll_segments_text.1 h
    have hlt := StringPart.weightAll_lt_cons_self (.text s) parts
    exact .text (sound_parseAll_segments (Nat.le_of_lt (Nat.lt_of_lt_of_le hlt hn)) hp.2.2 ho)
  | .code tokens :: parts, hn, hp, segments, h => by
    obtain ⟨e, left, s, more, others, he, hs, ho, rfl⟩ := parseAll_segments_code.1 h
    have hlt := StringPart.weightAll_lt_cons_self (.code tokens) parts
    have htokens := Nat.lt_of_lt_of_le (Program.weightAll_withoutComments_lt_code tokens parts) hn
    have hended : Spanned.Ended tokens := hp.1
    have hkept := Program.withoutComments_of_proper hended.properList
    rw [hkept] at he htokens
    obtain ⟨⟨us, rfl, hexpr⟩, -⟩ := ih htokens hended.properList he
    obtain ⟨z, rfl, hz, -⟩ := returns_expectEof.1 hs
    obtain rfl := hended.nil_of_eof hz
    refine .code (by simp [hz]) hexpr ?_
    exact sound_parseAll_segments (Nat.le_of_lt (Nat.lt_of_lt_of_le hlt hn)) hp.2.2 ho

theorem sound_parsePostfix {m : Nat} : ∀ {ts : List Spanned} {e : Expr}
    {h : Spanned.weightAll ts < m}, Spanned.weightAll ts < n → Spanned.ProperList ts →
      ∀ {e' rest}, (Expr.parsePostfix e ts h).Returns e' rest →
      Takes ts rest (Operators e.unplaced · e'.unplaced) ∧ Stops rest
  | [], e, _, _, _, _, _, h => by
    obtain ⟨rfl, rfl⟩ := returns_parsePostfix_nil.1 h
    exact ⟨⟨[], rfl, .none _⟩, nofun⟩
  | t :: ts, e, _, hn, hp, e', rest, h => by
    rw [returns_parsePostfix] at h
    split at h
    next ht =>
      obtain ⟨name, afterName, hname, h⟩ := h
      have hafter := Nat.lt_trans hname.lighter (t.weightAll_lt_cons ts)
      obtain ⟨u, rfl, hu, -⟩ := returns_expectName.1 hname
      have hp' := hp.tail.tail
      split at h
      next hb =>
        obtain ⟨⟨arguments, stop⟩, left, ha, h', h⟩ := h
        cases afterName with
        | nil => cases hb
        | cons v afterName =>
          have htail := Nat.lt_trans (v.weightAll_lt_cons afterName) hafter
          have hleft := Nat.lt_trans ha.lighter htail
          have hargs := sound_parseSequence ih (Nat.lt_trans htail hn) hp'.tail ha
          obtain ⟨hops, hstops⟩ :=
            sound_parsePostfix (Nat.lt_trans hleft hn) (hargs.properList hp'.tail) h
          rw [Expr.unplaced_method, Name.unplaced_eq] at hops
          exact ⟨hargs.method ht hu (Token.isMark_iff.1 hb) hops, hstops⟩
      next hb =>
        obtain ⟨h', h⟩ := h
        obtain ⟨hops, hstops⟩ := sound_parsePostfix (Nat.lt_trans hafter hn) hp' h
        rw [Expr.unplaced_member, Name.unplaced_eq] at hops
        exact ⟨hops.member ht hu hb, hstops⟩
    next ht =>
      obtain ⟨key, afterKey, hk, close, left, hclose, h', h⟩ := h
      have hkey := Nat.lt_trans hk.lighter (t.weightAll_lt_cons ts)
      have hleft := Nat.lt_trans hclose.lighter hkey
      obtain ⟨hexpr, -⟩ := ih (Nat.lt_trans (t.weightAll_lt_cons ts) hn) hp.tail hk
      obtain ⟨u, rfl, hu, -⟩ := returns_expectMark.1 hclose
      obtain ⟨hops, hstops⟩ :=
        sound_parsePostfix (Nat.lt_trans hleft hn) (hexpr.properList hp.tail).tail h
      rw [Expr.unplaced_index] at hops
      exact ⟨hexpr.index ht hu hops, hstops⟩
    next ht =>
      obtain ⟨⟨arguments, stop⟩, left, ha, h', h⟩ := h
      have hleft := Nat.lt_trans ha.lighter (t.weightAll_lt_cons ts)
      have hargs := sound_parseSequence ih (Nat.lt_trans (t.weightAll_lt_cons ts) hn) hp.tail ha
      obtain ⟨hops, hstops⟩ :=
        sound_parsePostfix (Nat.lt_trans hleft hn) (hargs.properList hp.tail) h
      rw [Expr.unplaced_apply] at hops
      exact ⟨hargs.apply ht hops, hstops⟩
    next h₁ h₂ h₃ =>
      obtain ⟨rfl, rfl⟩ := h
      refine ⟨⟨[], rfl, .none _⟩, ?_⟩
      rintro u ⟨⟩
      unfold Token.isOperator
      split
      · exact absurd ‹_› h₁
      · exact absurd ‹_› h₂
      · exact absurd ‹_› h₃
      · rfl
termination_by ts => Spanned.weightAll ts

theorem sound_parseLambda {start : Nat} {names : List Name} {ts rest : List Spanned} {e : Expr}
    (hn : Spanned.weightAll ts < n) (hp : Spanned.ProperList ts)
    (h : (Expr.parseLambda start names ts).Returns e rest) :
    Takes ts rest (fun us => Expression
      (.mark .openParen :: nameTokens (names.map (·.text)) ++ .mark .closeParen :: us)
      e.unplaced) ∧ Stops rest := by
  obtain ⟨hnames, s, left, body, hs, hbody, rfl⟩ := returns_parseLambda.1 h
  have hleft := hs.lighter
  obtain ⟨t, rfl, ht, -⟩ := returns_expectMark.1 hs
  obtain ⟨⟨us, rfl, hexpr⟩, hstops⟩ := ih (Nat.lt_trans hleft hn) hp.tail hbody
  refine ⟨⟨t :: us, rfl, ?_⟩, hstops⟩
  have := Expression.lambda _ (Name.repeated?_eq_none_iff.1 hnames).1 hexpr
  rw [← Name.map_unplaced] at this
  simpa [ht] using this

theorem sound_parseLet {ts rest : List Spanned} {e : Expr}
    (hn : Spanned.weightAll ts ≤ n) (hp : Spanned.ProperList ts)
    (h : (Expr.parseLet ts).Returns e rest) :
    Takes ts rest (Expression · e.unplaced) ∧ Stops rest := by
  obtain ⟨word, afterWord, hword, h', bindings, afterBindings, hb, hne, s, afterIn, hs, body,
    hbody, rfl⟩ := returns_parseLet.1 h
  have hafterIn := Nat.lt_trans hs.lighter hb.lighter
  obtain ⟨t, rfl, ht, -⟩ := returns_expectKeyword.1 hword
  obtain ⟨us, rfl, hbindings⟩ :=
    sound_parseAll_bindings ih (Nat.lt_of_lt_of_le h' hn) hp.tail hb
  obtain ⟨u, rfl, hu, -⟩ := returns_expectKeyword.1 hs
  obtain ⟨⟨vs, rfl, hexpr⟩, hstops⟩ :=
    ih (Nat.lt_of_lt_of_le hafterIn hn) hp.tail.right.tail hbody
  refine ⟨⟨t :: us ++ u :: vs, by simp, ?_⟩, hstops⟩
  have := Expression.letIn (by simpa using hne) hbindings hexpr
  simpa [ht, hu] using this

/-- A parenthesis begins a group or, up to where no operator follows, a lambda. -/
theorem sound_parseParen {start : Nat} {ts rest : List Spanned} {e : Expr}
    (hn : Spanned.weightAll ts < n) (hp : Spanned.ProperList ts)
    (h : (Expr.parseParen start ts).Returns e rest) :
    Takes ts rest (fun us => Primary (.mark .openParen :: us) e.unplaced ∨
      Expression (.mark .openParen :: us) e.unplaced ∧ Stops rest) := by
  rw [returns_parseParen] at h
  split at h
  next =>
    obtain ⟨s, left, hs, h⟩ := h
    have hleft := Nat.lt_trans hs.lighter hn
    obtain ⟨t, rfl, ht, -⟩ := returns_expectMark.1 hs
    obtain ⟨⟨us, rfl, hexpr⟩, hstops⟩ := sound_parseLambda ih hleft hp.tail h
    exact ⟨t :: us, rfl, .inr ⟨by simpa [ht, nameTokens] using hexpr, hstops⟩⟩
  next =>
    obtain ⟨names, left, hnames, h⟩ := h
    have hleft := Nat.lt_trans hnames.lighter hn
    obtain ⟨us, rfl, -, hus⟩ := sound_parameters hnames
    obtain ⟨⟨vs, rfl, hexpr⟩, hstops⟩ := sound_parseLambda ih hleft hp.right h
    exact ⟨us ++ vs, by simp, .inr ⟨by simpa [hus] using hexpr, hstops⟩⟩
  next =>
    obtain ⟨name, afterName, hname, s, left, hs, h⟩ := h
    have hleft := Nat.lt_trans (Nat.lt_trans hs.lighter hname.lighter) hn
    obtain ⟨t, rfl, ht, -⟩ := returns_expectName.1 hname
    obtain ⟨u, rfl, hu, -⟩ := returns_expectMark.1 hs
    split at h
    next =>
      obtain ⟨⟨us, rfl, hexpr⟩, hstops⟩ := sound_parseLambda ih hleft hp.tail.tail h
      exact ⟨t :: u :: us, rfl, .inr ⟨by simpa [ht, hu, nameTokens] using hexpr, hstops⟩⟩
    next =>
      obtain ⟨rfl, rfl⟩ := h
      have := Primary.group (.chain (.name name.text) (.none _))
      exact ⟨[t, u], rfl, .inl (by simpa [ht, hu, Name.unplaced_eq] using this)⟩
  next =>
    obtain ⟨inner, left, hi, s, hs, rfl⟩ := h
    obtain ⟨⟨us, rfl, hexpr⟩, -⟩ := ih hn hp hi
    obtain ⟨t, rfl, ht, -⟩ := returns_expectMark.1 hs
    exact ⟨us ++ [t], by simp, .inl (by simpa [ht] using Primary.group hexpr)⟩

theorem sound_parsePrimary {t : Spanned} {ts rest : List Spanned} {e : Expr}
    (hn : Spanned.weightAll (t :: ts) ≤ n) (hp : Spanned.ProperList (t :: ts))
    (h : (Expr.parsePrimary (t :: ts)).Returns e rest) :
    Takes (t :: ts) rest (fun us => Primary us e.unplaced ∨
      Expression us e.unplaced ∧ Stops rest) := by
  have hts := Nat.lt_of_lt_of_le (t.weightAll_lt_cons ts) hn
  rcases returns_parsePrimary.1 h with ⟨ha, rfl⟩ | ⟨parts, segments, ht, hs, rfl, rfl⟩ |
    ⟨ht, h⟩ | ⟨ht, h⟩ | ⟨ht, h⟩
  · refine ⟨[t], rfl, .inl ?_⟩
    unfold Spanned.atom? at ha
    split at ha <;> cases ha
    next v ht => simpa [ht] using Primary.int v
    next v ht => simpa [ht] using Primary.float v
    next ht => simpa [ht] using Primary.trueWord
    next ht => simpa [ht] using Primary.falseWord
    next text ht => simpa [ht] using Primary.name text
  · have hproper : StringPart.ProperAll parts := by
      rcases hp t (by simp) with he | hp
      · rw [ht] at he
        cases he
      · rwa [ht] at hp
    have hlt := Nat.lt_of_lt_of_le (StringPart.weightAll_lt_cons ht rest) hn
    have := Primary.string parts (sound_parseAll_segments ih (Nat.le_of_lt hlt) hproper hs)
    exact ⟨[t], rfl, .inl (by simpa [ht] using this)⟩
  · obtain ⟨s, left, hs, entries, stop, he, rfl⟩ := returns_parseMap.1 h
    obtain ⟨_, hcons, -, -⟩ := returns_expectMark.1 hs
    cases hcons
    obtain ⟨us, rfl, as, has, hentries⟩ := sound_parseAll_entries ih hts hp.tail he
    exact ⟨t :: us, rfl, .inl (by simpa [ht, has] using Primary.map hentries)⟩
  · obtain ⟨s, left, hs, items, stop, hi, rfl⟩ := returns_parseList.1 h
    obtain ⟨_, hcons, -, -⟩ := returns_expectMark.1 hs
    cases hcons
    obtain ⟨us, rfl, as, has, hitems⟩ := sound_parseSequence ih hts hp.tail hi
    exact ⟨t :: us, rfl, .inl (by simpa [ht, has] using Primary.list hitems)⟩
  · obtain ⟨us, rfl, hparen⟩ := sound_parseParen ih hts hp.tail h
    exact ⟨t :: us, rfl, by simpa [ht] using hparen⟩

end

/-- Nothing is left for the operators where none follows. -/
theorem returns_parsePostfix_of_stops {n : Nat} {ts rest : List Spanned} {e e' : Expr}
    {h : Spanned.weightAll ts < n} (hs : Stops ts) :
    (Expr.parsePostfix e ts h).Returns e' rest ↔ e = e' ∧ ts = rest := by
  cases ts with
  | nil => exact returns_parsePostfix_nil
  | cons t ts =>
    have ht := hs t rfl
    rw [returns_parsePostfix]
    split <;> simp_all [Token.isOperator]

theorem sound_parse (ts : List Spanned) : Expr.Sound ts := by
  intro hp e rest h
  cases ts with
  | nil => exact absurd h not_returns_parse_nil
  | cons t ts =>
    have ih : ∀ {us}, Spanned.weightAll us < Spanned.weightAll (t :: ts) → Expr.Sound us :=
      fun {us} _ => sound_parse us
    rcases returns_parse.1 h with ⟨-, h⟩ | ⟨-, p, left, hlt, hparsed, hpostfix⟩
    · exact sound_parseLet ih (Nat.le_refl _) hp h
    · obtain ⟨us, hus, hprimary⟩ := sound_parsePrimary ih (Nat.le_refl _) hp hparsed
      rw [hus] at hp
      rcases hprimary with hprimary | ⟨hexpr, hstops⟩
      · obtain ⟨⟨vs, rfl, hops⟩, hstops⟩ := sound_parsePostfix ih hlt hp.right hpostfix
        exact ⟨⟨us ++ vs, by simp [hus], by simpa using Expression.chain hprimary hops⟩, hstops⟩
      · obtain ⟨rfl, rfl⟩ := (returns_parsePostfix_of_stops hstops).1 hpostfix
        exact ⟨⟨us, hus, hexpr⟩, hstops⟩
termination_by Spanned.weightAll ts

end ConfigExpr
