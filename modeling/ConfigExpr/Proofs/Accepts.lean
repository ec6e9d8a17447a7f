import ConfigExpr.Proofs.Common
import ConfigExpr.Proofs.Complete
import ConfigExpr.Proofs.Derived
import Mathlib.Data.List.Basic

/-!
# What programs parse

A source without lexical errors parses to a tree if and only if the grammar derives the tree from
its tokens before the end mark (`Program.parse_iff_derives`), and no tokens derive two trees.
-/

namespace ConfigExpr

open Grammar Outcome

theorem parseWhole_iff_derives {ts : List Spanned} {us : List Token} {e : Expr}
    (h : Spanned.Ended ts) (hts : ts.map (·.token) = us ++ [.eof]) :
    (∃ e' rest, (Expr.parseWhole ts).Returns e' rest ∧ e'.unplaced = e) ↔ Expression us e := by
  constructor
  · rintro ⟨e', rest, hparse, rfl⟩
    obtain ⟨left, s, he, hs⟩ := returns_parseWhole.1 hparse
    obtain ⟨⟨vs, rfl, hexpr⟩, -⟩ := sound_parse ts h.properList he
    obtain ⟨z, rfl, hz, -⟩ := returns_expectEof.1 hs
    obtain rfl := h.nil_of_eof hz
    have hvs : vs.map (·.token) = us := by simpa [hz] using hts
    rwa [hvs] at hexpr
  · intro he
    obtain ⟨vs, _, rfl, hvs, heof⟩ := List.map_eq_append_iff.1 hts
    obtain ⟨z, _, rfl, hz, hnil⟩ := List.map_eq_cons_iff.1 heof
    obtain rfl := List.map_eq_nil_iff.1 hnil
    have hrest : Follows [z] := .cons hz rfl nofun
    obtain ⟨e', he', heq⟩ := complete_expression he _ hvs hrest
    have hend : (expectEof [z]).Returns z.span [] := returns_expectEof.2 ⟨z, rfl, hz, rfl⟩
    exact ⟨e', [], returns_parseWhole.2 ⟨[z], z.span, he', hend⟩, heq⟩

namespace Program

theorem exists_parse_iff {source : String} {e : Expr} :
    (∃ p, parse source = .ok p ∧ p.expression = e) ↔
      ∃ rest, (Expr.parseWhole (withoutComments (Tokens.ofText source).tokens)).Returns e rest := by
  unfold parse ofTokens
  constructor
  · rintro ⟨p, hp, rfl⟩
    split at hp
    next e rest lighter h =>
      cases hp
      exact ⟨rest, lighter, h⟩
    next => cases hp
    next =>
      split at hp <;> cases hp
  · rintro ⟨rest, lighter, h⟩
    rw [h]
    exact ⟨_, rfl, rfl⟩

theorem parseWhole_withoutComments {source : String} {e : Expr} {rest : List Spanned}
    (h : (Expr.parseWhole (withoutComments (Tokens.ofText source).tokens)).Returns e rest) :
    (Tokens.ofText source).error = none := by
  have hmem : ∀ t ∈ withoutComments (Tokens.ofText source).tokens,
      t.token.Proper ∨ t.token = .eof ∧ (Tokens.ofText source).error = none := by
    intro t ht
    obtain ⟨ht, hcomment⟩ := List.mem_filter.1 ht
    rcases Cursor.proper_of_mem_tokens ht with h | h | h
    · exact .inl h
    · simp [h, Token.isComment] at hcomment
    · exact .inr h
  obtain ⟨left, s, he, hs⟩ := returns_parseWhole.1 h
  obtain ⟨⟨us, hsplit, -⟩, -⟩ := sound_parse _
    (fun t ht => (hmem t ht).elim .inr fun h => .inl h.1) he
  obtain ⟨z, rfl, hz, -⟩ := returns_expectEof.1 hs
  rcases hmem z (by rw [hsplit]; simp) with h | h
  · rw [hz] at h
    exact h.elim
  · exact h.2

/-- A source that parses has no lexical error, and its tokens derive its tree. -/
theorem derives_of_parse {source : String} {p : Program} (h : parse source = .ok p) :
    ∃ us, Expression us p.expression.unplaced ∧
      ∀ t ∈ us, t.Proper ∧ ∃ u ∈ (Tokens.ofText source).tokens, u.token = t := by
  obtain ⟨rest, hrest⟩ := exists_parse_iff.1 ⟨p, h, rfl⟩
  have hended := Cursor.ended_withoutComments (parseWhole_withoutComments hrest)
  obtain ⟨body, z, hbody, hz, hproper⟩ := Spanned.ended_iff.1 hended
  refine ⟨body.map (·.token), (parseWhole_iff_derives hended ?_).1 ⟨_, rest, hrest, rfl⟩, ?_⟩
  · rw [hbody, List.map_append, List.map_singleton, hz]
  · refine List.forall_mem_map.2 fun u hu => ⟨hproper u hu, u, ?_, rfl⟩
    have hmem : u ∈ withoutComments (Tokens.ofText source).tokens := by
      rw [Tokens.ofText, hbody]
      exact List.mem_append_left [z] hu
    exact List.mem_of_mem_filter hmem

/-- What the rules give to trees of proper tokens holds of all parts of a parsed expression. -/
theorem everywhere_of_parse {source : String} {p : Program} (h : parse source = .ok p)
    (P : TreeProperty) (hplace : ∀ x : Expr, P.expr x.unplaced ↔ P.expr x)
    (htokens : ∀ u ∈ (Tokens.ofText source).tokens, u.token.Proper → P.token u.token) :
    p.expression.Everywhere P.expr := by
  obtain ⟨us, hus, hsource⟩ := derives_of_parse h
  refine (Expr.everywhere_unplaced hplace).1 (hus.everywhere fun t ht => ?_)
  obtain ⟨hproper, u, hu, rfl⟩ := hsource t ht
  exact htokens u hu hproper

/-- The parser accepts the grammar: a source parses to a tree, up to positions, if and only if its
tokens before the end mark derive the tree. -/
theorem parse_iff_derives {source : String} (h : (Tokens.ofText source).error = none) :
    ∃ ts : List Token,
      (withoutComments (Tokens.ofText source).tokens).map (·.token) = ts ++ [.eof] ∧
      (∀ t ∈ ts, t.Proper) ∧
      (∀ e, (∃ p, parse source = .ok p ∧ p.expression.unplaced = e) ↔ Expression ts e) ∧
      ∀ us a b, Expression us a → Expression us b → a = b := by
  have hended := Cursor.ended_withoutComments h
  obtain ⟨body, z, hbody, hz, hproper⟩ := Spanned.ended_iff.1 hended
  have hts : (withoutComments (Tokens.ofText source).tokens).map (·.token) =
      body.map (·.token) ++ [.eof] := by
    rw [Tokens.ofText, hbody, List.map_append, List.map_singleton, hz]
  refine ⟨body.map (·.token), hts, ?_, fun e => ?_, fun us a b => Expression.unique⟩
  · intro t ht
    obtain ⟨u, hu, rfl⟩ := List.mem_map.1 ht
    exact hproper u hu
  · rw [← parseWhole_iff_derives hended hts]
    constructor
    · rintro ⟨p, hp, heq⟩
      obtain ⟨rest, hrest⟩ := exists_parse_iff.1 ⟨p, hp, rfl⟩
      exact ⟨p.expression, rest, hrest, heq⟩
    · rintro ⟨e', rest, hrest, heq⟩
      obtain ⟨p, hp, rfl⟩ := exists_parse_iff.2 ⟨rest, hrest⟩
      exact ⟨p, hp, heq⟩

set_option maxRecDepth 4000 in
theorem parse_iff_derives_nested :
    let source := "let f = (x) => {a: x} in \"1${f((2),).a}\""
    (Tokens.ofText source).error = none ∧
      ∃ ts e, (withoutComments (Tokens.ofText source).tokens).map (·.token) = ts ++ [.eof] ∧
        Expression ts e ∧ ∃ p, parse source = .ok p ∧ p.expression.unplaced = e := by
  intro source
  have herror : (Tokens.ofText source).error = none := by cbv
  have hok : (parse source).isOk = true := by cbv
  obtain ⟨ts, hts, -, hiff, -⟩ := parse_iff_derives herror
  cases hp : parse source with
  | error e => simp [hp, Except.isOk, Except.toBool] at hok
  | ok p => exact ⟨herror, ts, _, hts, (hiff _).1 ⟨p, hp, rfl⟩, p, rfl, rfl⟩

end Program

end ConfigExpr
