import ConfigExpr.Proofs.Accepts
import ConfigExpr.Proofs.Balanced
import ConfigExpr.Proofs.MovedParse
import ConfigExpr.Proofs.Tiles

/-!
# Programs inside strings

A program that parses, put between `"${` and `}"`, is a template whose only segment is the
expression of the program, moved by the three bytes before it (`Program.parse_interpolated`). The
tokens of the program close the braces they open, so the code ends at the brace after them.
-/

namespace ConfigExpr

open Grammar Outcome

/-- A brace goes on with a comment that ends its text, and with no other token. -/
theorem Token.goesOn_of_append_brace {t : Token} {us rest : List Char}
    (h : t = .comment → us ≠ []) (hgoes : t.goesOn (us ++ '\x7d' :: rest) = true) :
    t.goesOn us = true := by
  rcases us with _ | ⟨c, _ | ⟨d, us⟩⟩
  · cases t with
    | comment => exact absurd rfl (h rfl)
    | mark m => cases m <;> cases hgoes
    | string parts => simp [goesOn] at hgoes
    | _ => cases hgoes
  · cases t with
    | mark m => cases m <;> exact hgoes
    | int v => simpa [goesOn] using hgoes
    | _ => exact hgoes
  · cases t with
    | mark m => cases m <;> exact hgoes
    | _ => exact hgoes

namespace Program

theorem moveAll_withoutComments_cons (g : Nat → Nat) (t : Spanned) (ts : List Spanned) :
    Spanned.moveAll g (withoutComments (t :: ts)) =
      if (t.mapSpans (Span.move g)).token.isComment then Spanned.moveAll g (withoutComments ts)
      else t.mapSpans (Span.move g) :: Spanned.moveAll g (withoutComments ts) := by
  rw [withoutComments_cons, Spanned.mapSpans_token, Token.isComment_mapSpans,
    apply_ite (Spanned.moveAll g)]
  rfl

end Program

/-- A comment opens and closes no brace. -/
theorem Token.exists_depth_of_withoutComments_cons {t : Spanned} {ts : List Spanned}
    {depth last : Nat} (h : ((Program.withoutComments (t :: ts)).map (·.token)).foldlM
      depthAfter? depth = some last) :
    ∃ inner, t.token.depthAfter? depth = some inner ∧
      ((Program.withoutComments ts).map (·.token)).foldlM depthAfter? inner = some last := by
  rw [Program.withoutComments_cons] at h
  split at h
  next hcomment =>
    refine ⟨depth, ?_, h⟩
    rw [isComment_iff.1 hcomment]
    rfl
  next =>
    rw [List.map_cons, List.foldlM_cons] at h
    exact Option.bind_eq_some_iff.1 h

namespace Cursor

/-- The brace after blank characters closes code in which no brace is open. -/
theorem readsCode_closeBrace {dollar q : Nat} {blanks : List Char}
    (hblanks : ∀ b ∈ blanks, Text.isBlank b = true) (rest : List Char) :
    ReadsCode dollar 0 ⟨q, blanks ++ '\x7d' :: rest⟩ [⟨.eof, .point (q + bytes blanks)⟩]
      ⟨q + bytes blanks + 1, rest⟩ := by
  have hskip : (⟨q, blanks ++ '\x7d' :: rest⟩ : Cursor).skipBlanks =
      ⟨q + bytes blanks, '\x7d' :: rest⟩ := by
    have hbrace : ∀ b ∈ ('\x7d' :: rest).head?, Text.isBlank b = false := by
      rintro _ ⟨⟩
      rfl
    obtain ⟨htake, hdrop⟩ := takeWhile_dropWhile_append hblanks hbrace
    rw [skipBlanks, htake, hdrop]
  have hbrace : ReadsToken ⟨q + bytes blanks, '\x7d' :: rest⟩
      ⟨.mark .closeBrace, ⟨q + bytes blanks, q + bytes blanks + 1⟩⟩
      ⟨q + bytes blanks + 1, rest⟩ := .lexeme rfl (by decide) rfl
  rw [← hskip] at hbrace
  exact .close hbrace rfl

/-- Before a closing brace the tokens of a text are read as code, unless a comment takes the brace,
and if they close the braces they open and those open before them. -/
theorem readsCode_of_tokens {g : Nat → Nat} {dollar : Nat} (rest : List Char) {c : Cursor}
    (hg : Slides g c.position) (herror : c.tokens.error = none)
    (hcomment : ∀ t ∈ c.tokens.tokens, t.token = .comment →
      t.span.stop ≠ c.position + bytes c.rest) :
    ∀ {depth : Nat}, ((Program.withoutComments c.tokens.tokens).map (·.token)).foldlM
        Token.depthAfter? depth = some 0 →
      ReadsCode dollar depth ⟨g c.position, c.rest ++ '\x7d' :: rest⟩
        (Spanned.moveAll g (Program.withoutComments c.tokens.tokens))
        ⟨g (c.position + bytes c.rest) + 1, rest⟩ := by
  fun_induction tokens c with
  | case1 c p hn =>
    rintro depth ⟨⟩
    obtain ⟨hrest, rfl⟩ := finish_of_next hn
    have hskip := c.passes_skipBlanks
    have hblank : c.rest.takeWhile Text.isBlank = c.rest := by
      have hsplit := hskip.rest
      rw [hrest, List.append_nil] at hsplit
      exact hsplit.symm
    have hcode : ReadsCode dollar 0 ⟨g c.position, _⟩ _ _ :=
      readsCode_closeBrace (fun _ => List.mem_takeWhile_imp (l := c.rest)) rest
    rw [hblank, ← hg] at hcode
    rw [hskip.position, hblank]
    exact hcode
  | case2 c e hn => cases herror
  | case3 c t after hafter hn others ih =>
    intro depth hdepth
    obtain ⟨inner, hinner, hdepth⟩ := Token.exists_depth_of_withoutComments_cons hdepth
    have hreads := readsToken_of_yields ⟨hafter, hn⟩
    have hskip := c.passes_skipBlanks
    obtain ⟨us, hne, hus, hmove⟩ := hreads.exists_move (hg.passes hskip)
    have hpasses := hskip.append hus
    have hlast : t.token = .comment → after.rest ≠ [] := by
      intro ht hnil
      refine hcomment t List.mem_cons_self ht ?_
      rw [← hpasses.position_add, hreads.extent.1, hnil]
      rfl
    have htoken := hmove (after.rest ++ '\x7d' :: rest) (Token.goesOn_of_append_brace hlast)
    rw [← skipBlanks_move hg hne hus] at htoken
    have hcomments : ∀ u ∈ others.tokens, u.token = .comment →
        u.span.stop ≠ after.position + bytes after.rest := by
      rw [hpasses.position_add]
      exact fun u hu => hcomment u (List.mem_cons_of_mem t hu)
    have hothers := ih (hg.passes hpasses) herror hcomments hdepth
    have hsplit : c.rest ++ '\x7d' :: rest =
        c.rest.takeWhile Text.isBlank ++ (us ++ (after.rest ++ '\x7d' :: rest)) := by
      conv_lhs => rw [hpasses.rest]
      simp only [List.append_assoc]
    rw [hsplit, ← hpasses.position_add, Program.moveAll_withoutComments_cons]
    refine .token htoken ?_ hothers
    rw [Spanned.mapSpans_token, Token.depthAfter?_mapSpans, hinner]

/-- Between quotes and braces code is the only part of a string. -/
theorem readsToken_of_readsCode {cs : List Char} {tokens : List Spanned} {q : Nat}
    (h : ReadsCode 1 0 ⟨3, cs⟩ tokens ⟨q, ['"']⟩) :
    ReadsToken ⟨0, '"' :: '$' :: '\x7b' :: cs⟩ ⟨.string [.code tokens], ⟨0, q + 1⟩⟩
      ⟨q + 1, []⟩ := by
  have hopen : stretch .line 0 ⟨1, '$' :: '\x7b' :: cs⟩ = .ok ([], .code 1 ⟨3, cs⟩) := by
    rw [stretch, lineStretch]
  have hclose : stretch .line 0 ⟨q, ['"']⟩ = .ok ([], .closed ⟨q + 1, []⟩) := by
    rw [stretch, lineStretch]
  have hquote : ∀ ds, '$' :: '\x7b' :: cs ≠ '"' :: '"' :: ds := by simp
  exact .line hquote (.code hopen h (.closed hclose))

end Cursor

theorem Outcome.Moves.returns {α : Type} {m n : Nat} {g : Nat → Nat} {move : α → α}
    {o : Outcome α m} {o' : Outcome α n} (h : o.Moves g move o') {value : α} {rest : List Spanned}
    (hreturns : o.Returns value rest) : o'.Returns (move value) (Spanned.moveAll g rest) := by
  cases h with
  | ok hvalue hrest =>
    obtain ⟨rfl, rfl⟩ := returns_ok.1 hreturns
    exact returns_ok.2 ⟨hvalue, hrest⟩
  | error => exact absurd hreturns returns_error

/-- A string whose only part is a whole expression parses to a template of it. -/
theorem returns_parseWhole_template {tokens left more : List Spanned} {e : Expr} {s : Span}
    (he : (Expr.parse (Program.withoutComments tokens)).Returns e left)
    (hend : (expectEof left).Returns s more) (span stop : Span) :
    (Expr.parseWhole [⟨.string [.code tokens], span⟩, ⟨.eof, stop⟩]).Returns
      (.template [.code e] span) [] := by
  have hsegments : Segment.parseAll [.code tokens] = .ok [.code e] := by
    refine parseAll_segments_code.2 ⟨e, left, s, more, [], he, hend, ?_, rfl⟩
    rw [Segment.parseAll]
  have hprimary : (Expr.parsePrimary [⟨.string [.code tokens], span⟩, ⟨.eof, stop⟩]).Returns
      (.template [.code e] span) [⟨.eof, stop⟩] :=
    returns_parsePrimary.2 (.inr (.inl ⟨_, _, rfl, hsegments, rfl, rfl⟩))
  have hparse : (Expr.parse [⟨.string [.code tokens], span⟩, ⟨.eof, stop⟩]).Returns
      (.template [.code e] span) [⟨.eof, stop⟩] :=
    returns_parse.2 (.inr ⟨by simp, _, _, hprimary.lighter, hprimary,
      returns_parsePostfix.2 ⟨rfl, rfl⟩⟩)
  exact returns_parseWhole.2 ⟨_, stop, hparse, returns_expectEof.2 ⟨_, rfl, rfl, rfl⟩⟩

namespace Program

/-- The tokens of a source that parses close the braces they open. -/
theorem balanced_of_parse {source : String} {p : Program} (h : parse source = .ok p) :
    (Tokens.ofText source).error = none ∧
      Balanced ((withoutComments (Tokens.ofText source).tokens).map (·.token)) := by
  obtain ⟨rest, hrest⟩ := exists_parse_iff.1 ⟨p, h, rfl⟩
  have herror := parseWhole_withoutComments hrest
  refine ⟨herror, ?_⟩
  have hended := Cursor.ended_withoutComments herror
  obtain ⟨body, z, hbody, hz, -⟩ := Spanned.ended_iff.1 hended
  have hts : (withoutComments (Tokens.ofText source).tokens).map (·.token) =
      body.map (·.token) ++ [.eof] := by
    rw [Tokens.ofText, hbody, List.map_append, List.map_singleton, hz]
  have hderives := (parseWhole_iff_derives hended hts).1 ⟨_, rest, hrest, rfl⟩
  rw [hts]
  exact hderives.balanced.append (.cons (fun _ => rfl) .nil)

theorem ofTokens_template {tokens left more : List Spanned} {e : Expr} {s : Span}
    (he : (Expr.parse (withoutComments tokens)).Returns e left)
    (hend : (expectEof left).Returns s more) (span stop : Span) :
    ofTokens ⟨[⟨.string [.code tokens], span⟩, ⟨.eof, stop⟩], none⟩ =
      .ok ⟨.template [.code e] span, []⟩ := by
  have hwhole : (Expr.parseWhole (withoutComments
      [⟨.string [.code tokens], span⟩, ⟨.eof, stop⟩])).Returns (.template [.code e] span) [] :=
    returns_parseWhole_template he hend span stop
  obtain ⟨lighter, hwhole⟩ := hwhole
  simp only [ofTokens, hwhole]
  rfl

/-- Interpolation is ordinary parsing: a program that does not end in a comment, put between `"${`
and `}"`, parses to a template of its expression, moved by three bytes. -/
theorem parse_interpolated {source : String} {p : Program} (h : parse source = .ok p)
    (hcomment : ∀ t ∈ (Tokens.ofText source).tokens, t.token = .comment →
      t.span.stop ≠ bytes source.toList) :
    parse ("\"$\x7b" ++ source ++ "\x7d\"") =
      .ok ⟨.template [.code (p.expression.move (· + 3))] ⟨0, bytes source.toList + 5⟩, []⟩ := by
  obtain ⟨herror, hbalanced⟩ := balanced_of_parse h
  obtain ⟨rest, hrest⟩ := exists_parse_iff.1 ⟨p, h, rfl⟩
  obtain ⟨left, s, he, hend⟩ := returns_parseWhole.1 hrest
  have hcomment' : ∀ t ∈ (Tokens.ofText source).tokens, t.token = .comment →
      t.span.stop ≠ 0 + bytes source.toList := by
    rwa [Nat.zero_add]
  have hcode : Cursor.ReadsCode 1 0 _ _ _ := Cursor.readsCode_of_tokens
    (c := Cursor.start source.toList) ['"'] (slides_add 3 0) herror hcomment' (hbalanced 0)
  rw [Cursor.start, Nat.zero_add, Nat.zero_add] at hcode
  have htokens := (Cursor.readsToken_of_readsCode hcode).tokens
  have htext : ("\"$\x7b" ++ source ++ "\x7d\"").toList =
      '"' :: '$' :: '\x7b' :: (source.toList ++ ['\x7d', '"']) := by
    simp
  have hmoved := (Expr.parse_moves (· + 3) _).returns he
  rw [← withoutComments_withoutComments, ← withoutComments_moveAll] at hmoved
  rw [parse, Tokens.ofText, htext, Cursor.start, htokens]
  exact ofTokens_template hmoved ((moves_expectEof _).returns hend) _ _

set_option maxRecDepth 4000 in
/-- The map has a string with code of its own and a comment that ends on its line. -/
theorem parse_interpolated_map :
    let source := "\x7ba: \"x$\x7bb\x7d\" # c\n\x7d"
    ∃ p, parse source = .ok p ∧
      (∀ t ∈ (Tokens.ofText source).tokens, t.token = .comment →
        t.span.stop ≠ bytes source.toList) ∧
      parse ("\"$\x7b" ++ source ++ "\x7d\"") =
        .ok ⟨.template [.code (p.expression.move (· + 3))] ⟨0, bytes source.toList + 5⟩, []⟩ := by
  intro source
  let value : Expr := .template [.text "x", .code (.name ⟨"b", ⟨8, 9⟩⟩)] ⟨4, 11⟩
  have hparse : parse source = .ok ⟨.map [⟨⟨"a", ⟨1, 2⟩⟩, value⟩] ⟨0, 17⟩, [⟨12, 15⟩]⟩ := by cbv
  have hcomment : ∀ t ∈ (Tokens.ofText source).tokens, t.token = .comment →
      t.span.stop ≠ bytes source.toList := by
    have hall : ((Tokens.ofText source).tokens.all fun t =>
        !t.token.isComment || t.span.stop != bytes source.toList) = true := by cbv
    intro t ht hcomment
    simpa [hcomment, Token.isComment] using List.all_eq_true.1 hall t ht
  exact ⟨_, hparse, hcomment, parse_interpolated hparse hcomment⟩

end Program

end ConfigExpr
