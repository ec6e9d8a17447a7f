import ConfigExpr.Proofs.PlacedParse

/-!
# Parsing goes forward

A rule leaves the end of the tokens it is given, and no end mark is among those it takes. Where it
fails it stops in them, and unless it stops at their end it reports the place of one of them, at any
depth (`Expr.parse_advances`). So only tokens that end without an end mark can run out.
-/

namespace ConfigExpr

/-- What is left of the tokens after some of them, none an end mark. -/
def Spanned.Leaves (ts rest : List Spanned) : Prop :=
  ∃ taken, ts = taken ++ rest ∧ ∀ t ∈ taken, t.token ≠ .eof

namespace Spanned.Leaves

variable {ts mid rest : List Spanned} {t : Spanned}

theorem refl (ts : List Spanned) : Leaves ts ts :=
  ⟨[], rfl, List.forall_mem_nil _⟩

theorem trans (h : Leaves ts mid) (h' : Leaves mid rest) : Leaves ts rest := by
  obtain ⟨taken, rfl, htaken⟩ := h
  obtain ⟨more, rfl, hmore⟩ := h'
  exact ⟨taken ++ more, (List.append_assoc _ _ _).symm,
    List.forall_mem_append.2 ⟨htaken, hmore⟩⟩

theorem cons (ht : t.token ≠ .eof) (ts : List Spanned) : Leaves (t :: ts) ts :=
  ⟨[t], rfl, List.forall_mem_singleton.2 ht⟩

theorem mem (h : Leaves ts rest) : ∀ t ∈ rest, t ∈ ts := by
  obtain ⟨taken, rfl, -⟩ := h
  exact fun _ => List.mem_append_right taken

/-- An end mark is never taken. -/
theorem mem_of_eof (h : Leaves ts rest) (ht : t ∈ ts) (heof : t.token = .eof) : t ∈ rest := by
  obtain ⟨taken, rfl, htaken⟩ := h
  rcases List.mem_append.1 ht with ht | ht
  · exact absurd heof (htaken t ht)
  · exact ht

theorem skipComma (ts : List Spanned) : Leaves ts (skipComma ts) := by
  cases ts with
  | nil => exact .refl []
  | cons t ts =>
    rw [ConfigExpr.skipComma]
    split
    next hcomma => exact .cons (Token.ne_eof_of_isMark hcomma) ts
    next => exact .refl _

end Spanned.Leaves

open Spanned (Leaves)

/-- Some tokens, and the errors that may be reported in them: those at one of the tokens, and any in
code without an end mark. -/
structure Reports where
  holds : Spanned → Prop
  allows : ParseError → Prop
  token : ∀ {fault : ParseFault} {t : Spanned}, holds t →
    (fault = .unexpectedEnd → t.token = .eof) → (∀ e, fault ≠ .lexical e) → allows ⟨fault, t.span⟩
  code : ∀ {t : Spanned} {parts : List StringPart} {tokens : List Spanned}, holds t →
    t.token = .string parts → .code tokens ∈ parts →
    (∃ u ∈ tokens, u.token = .eof) ∨ ∀ e, allows e

variable {R : Reports} {ts us : List Spanned} {t : Spanned}

/-- The tokens are all among those given, at any depth. -/
def Reports.Holds (R : Reports) (ts : List Spanned) : Prop :=
  ∀ t ∈ ts, t.Everywhere R.holds

namespace Reports.Holds

theorem leaves (h : R.Holds ts) (hleaves : Leaves ts us) : R.Holds us :=
  fun t ht => h t (hleaves.mem t ht)

theorem head (h : R.Holds (t :: ts)) : R.holds t :=
  (h t List.mem_cons_self).self

theorem tail (h : R.Holds (t :: ts)) : R.Holds ts :=
  fun u hu => h u (List.mem_cons_of_mem t hu)

/-- The tokens of the code in a string. -/
theorem code {parts : List StringPart} {tokens : List Spanned} (h : R.Holds (t :: ts))
    (ht : t.token = .string parts) (hcode : .code tokens ∈ parts) : R.Holds tokens := by
  intro u hu
  refine (h t List.mem_cons_self).inner ?_
  rw [Spanned.inner, ht]
  exact List.mem_flatMap.2 ⟨_, hcode, hu⟩

end Reports.Holds

/-- No lexical error, and one that may be reported unless the place is one where tokens ran out. -/
structure ParseError.AllowedBefore (R : Reports) (rest : List Spanned) (e : ParseError) : Prop where
  not_lexical : ∀ l, e.fault ≠ .lexical l
  allowed : rest ≠ [] → R.allows e

/-- A failure in the tokens. -/
structure Failure.StopsIn (R : Reports) (ts : List Spanned) (f : Failure) : Prop where
  leaves : Leaves ts f.rest
  error : f.error.AllowedBefore R f.rest

namespace Failure

theorem stopsIn_exhausted (h : Leaves ts []) : exhausted.StopsIn R ts :=
  ⟨h, by simp [exhausted, stop], fun hne => absurd rfl hne⟩

theorem stopsIn_stop {fault : ParseFault} (ht : R.holds t) (h : Leaves ts us)
    (hend : fault = .unexpectedEnd → t.token = .eof) (hlexical : ∀ e, fault ≠ .lexical e) :
    (stop fault t.span us).StopsIn R ts :=
  ⟨h, hlexical, fun _ => R.token ht hend hlexical⟩

theorem stopsIn_unexpected (ht : R.holds t) (h : Leaves ts (t :: us)) (expected : List Expected) :
    (unexpected t us expected).StopsIn R ts := by
  obtain ⟨token, span⟩ := t
  cases token with
  | eof => exact stopsIn_stop ht h (fun _ => rfl) (by simp)
  | _ => exact stopsIn_stop ht h (by simp) (by simp)

theorem StopsIn.of_leaves {f : Failure} (h : f.StopsIn R us) (hleaves : Leaves ts us) :
    f.StopsIn R ts :=
  ⟨hleaves.trans h.leaves, h.error⟩

/-- Tokens with an end mark do not run out. -/
theorem StopsIn.allowed {f : Failure} (h : f.StopsIn R ts) (ht : t ∈ ts) (heof : t.token = .eof) :
    R.allows f.error :=
  h.error.allowed (List.ne_nil_of_mem (h.leaves.mem_of_eof ht heof))

end Failure

/-- The rule leaves some of the tokens, with a value that satisfies a property, or stops in them. -/
inductive Outcome.Advances {α : Type} {n : Nat} (R : Reports) (ts : List Spanned) (P : α → Prop) :
    Outcome α n → Prop where
  | ok {value : α} {rest : List Spanned} {lighter : Spanned.weightAll rest < n} :
    P value → Leaves ts rest → Advances R ts P (.ok value rest lighter)
  | error {f : Failure} : f.StopsIn R ts → Advances R ts P (.error f)

namespace Outcome.Advances

variable {α β : Type} {m n : Nat} {P : β → Prop} {Q : α → Prop}

theorem map {o : Outcome α n} {k : α → β} (h : o.Advances R ts Q)
    (hk : ∀ value, Q value → P (k value)) : (o.map k).Advances R ts P := by
  cases h with
  | ok hvalue hleaves => exact .ok (hk _ hvalue) hleaves
  | error hf => exact .error hf

theorem weaken {o : Outcome β m} {hm : m < n} (h : o.Advances R ts P) :
    (o.weaken hm).Advances R ts P := by
  cases h with
  | ok hvalue hleaves => exact .ok hvalue hleaves
  | error hf => exact .error hf

theorem of_leaves {o : Outcome β n} (h : o.Advances R us P) (hleaves : Leaves ts us) :
    o.Advances R ts P := by
  cases h with
  | ok hvalue hrest => exact .ok hvalue (hleaves.trans hrest)
  | error hf => exact .error (hf.of_leaves hleaves)

@[elab_as_elim]
theorem elim {C : Outcome β n → Prop} {o : Outcome β n} (h : o.Advances R ts P)
    (error : ∀ f : Failure, f.StopsIn R ts → C (.error f))
    (ok : ∀ value rest lighter, P value → Leaves ts rest → C (.ok value rest lighter)) : C o := by
  cases h with
  | ok hvalue hleaves => exact ok _ _ _ hvalue hleaves
  | error hf => exact error _ hf

end Outcome.Advances

open Outcome (Advances)

/-! ## Single tokens -/

theorem advances_expectMark (m : Mark) (h : R.Holds ts) :
    (expectMark m ts).Advances R ts fun _ => True := by
  cases ts with
  | nil => exact .error (Failure.stopsIn_exhausted (.refl []))
  | cons t ts =>
    rw [expectMark]
    split
    next hm => exact .ok trivial (.cons (Token.ne_eof_of_isMark hm) ts)
    next => exact .error (Failure.stopsIn_unexpected h.head (.refl _) _)

theorem advances_expectKeyword (w : Keyword) (h : R.Holds ts) :
    (expectKeyword w ts).Advances R ts fun _ => True := by
  cases ts with
  | nil => exact .error (Failure.stopsIn_exhausted (.refl []))
  | cons t ts =>
    rw [expectKeyword]
    split
    next hw => exact .ok trivial (.cons (Token.ne_eof_of_isKeyword hw) ts)
    next => exact .error (Failure.stopsIn_unexpected h.head (.refl _) _)

/-- The end mark is the one that is expected, or the failure stops before it. -/
theorem expectEof_cases (h : R.Holds ts) :
    (∃ t rest, t ∈ ts ∧ t.token = .eof ∧ (expectEof ts).Returns t.span rest) ∨
      ∃ f, f.StopsIn R ts ∧ expectEof ts = .error f := by
  cases ts with
  | nil => exact .inr ⟨_, Failure.stopsIn_exhausted (.refl []), rfl⟩
  | cons t ts =>
    rw [expectEof]
    split
    next heof => exact .inl ⟨t, ts, List.mem_cons_self, Token.isEof_iff.1 heof, _, rfl⟩
    next => exact .inr ⟨_, Failure.stopsIn_unexpected h.head (.refl _) _, rfl⟩

/-- The name stands where one of the tokens does. -/
def Reports.Marks (R : Reports) (name : Name) : Prop :=
  ∃ t, R.holds t ∧ t.span = name.span

theorem advances_expectName (h : R.Holds ts) : (expectName ts).Advances R ts R.Marks := by
  cases ts with
  | nil => exact .error (Failure.stopsIn_exhausted (.refl []))
  | cons t ts =>
    obtain ⟨token, span⟩ := t
    cases token with
    | ident name => exact .ok ⟨_, h.head, rfl⟩ (.cons (by simp) ts)
    | eof => exact .error (Failure.stopsIn_stop h.head (.refl _) (fun _ => rfl) (by simp))
    | _ => exact .error (Failure.stopsIn_stop h.head (.refl _) (by simp) (by simp))

theorem advances_parameters : ∀ {ts : List Spanned}, R.Holds ts →
    (parameters ts).Advances R ts fun names => ∀ n ∈ names, R.Marks n
  | ts, h => by
    rw [parameters]
    refine (advances_expectName h).elim (fun _ => .error) fun name rest lighter hname hleaves => ?_
    cases rest with
    | nil => exact .error (Failure.stopsIn_exhausted hleaves)
    | cons t rest =>
      have hrest := h.leaves hleaves
      dsimp only
      split
      next hcomma =>
        have htail := hleaves.trans (.cons (Token.ne_eof_of_isMark hcomma) rest)
        have := Nat.lt_trans (t.weightAll_lt_cons rest) lighter
        exact .weaken (.map ((advances_parameters hrest.tail).of_leaves htail) fun names hnames =>
          List.forall_mem_cons.2 ⟨hname, hnames⟩)
      split
      next hclose =>
        exact .ok (List.forall_mem_singleton.2 hname)
          (hleaves.trans (.cons (Token.ne_eof_of_isMark hclose) rest))
      next => exact .error (Failure.stopsIn_unexpected hrest.head hleaves _)
termination_by ts => Spanned.weightAll ts

/-! ## The rules -/

/-- From these tokens an expression is read, or the failure stops in them. -/
def Expr.ParseAdvances (R : Reports) (ts : List Spanned) : Prop :=
  R.Holds ts → (Expr.parse ts).Advances R ts fun _ => True

section

variable {n : Nat} (ih : ∀ {us}, Spanned.weightAll us < n → Expr.ParseAdvances R us)

include ih

theorem advances_parseSequence (close : Mark) : ∀ {ts : List Spanned},
    Spanned.weightAll ts < n → R.Holds ts →
    (Expr.parseSequence close ts).Advances R ts fun _ => True
  | [], _, _ => by
    rw [Expr.parseSequence]
    exact .error (Failure.stopsIn_exhausted (.refl []))
  | t :: ts, hn, h => by
    rw [Expr.parseSequence]
    split
    next hclose => exact .ok trivial (.cons (Token.ne_eof_of_isMark hclose) ts)
    next =>
      refine (ih hn h).elim (fun _ => .error) fun item rest lighter _ hleaves => ?_
      cases rest with
      | nil => exact .error (Failure.stopsIn_exhausted hleaves)
      | cons u left =>
        have hrest := h.leaves hleaves
        dsimp only
        split
        next hcomma =>
          have hleft := Nat.lt_trans (u.weightAll_lt_cons left) lighter
          have htail := hleaves.trans (.cons (Token.ne_eof_of_isMark hcomma) left)
          have hitems := advances_parseSequence close (Nat.lt_trans hleft hn) hrest.tail
          exact .weaken (.map (hitems.of_leaves htail) fun _ _ => trivial)
        split
        next hclose =>
          exact .ok trivial (hleaves.trans (.cons (Token.ne_eof_of_isMark hclose) left))
        next => exact .error (Failure.stopsIn_unexpected hrest.head hleaves _)
termination_by ts => Spanned.weightAll ts

/-- Of the code in a string each is whole, or its fault may be reported. -/
theorem allowed_parseAll_segments : ∀ {parts : List StringPart}, StringPart.weightAll parts ≤ n →
    (∀ tokens, .code tokens ∈ parts →
      R.Holds tokens ∧ ((∃ u ∈ tokens, u.token = .eof) ∨ ∀ e, R.allows e)) →
    ResultMeets (fun e : ParseError => R.allows e ∧ ∀ l, e.fault ≠ .lexical l) (fun _ => True)
      (Segment.parseAll parts)
  | [], _, _ => by
    rw [Segment.parseAll]
    exact .ok trivial
  | .text s :: parts, hn, h => by
    have hlt := StringPart.weightAll_lt_cons_self (.text s) parts
    have hparts := fun tokens ht => h tokens (List.mem_cons_of_mem (StringPart.text s) ht)
    rw [Segment.parseAll]
    exact (allowed_parseAll_segments (Nat.le_trans (Nat.le_of_lt hlt) hn) hparts).elim
      (fun _ he => .error he) fun _ _ => .ok trivial
  | .code tokens :: parts, hn, h => by
    have hlt := StringPart.weightAll_lt_cons_self (.code tokens) parts
    have hweight := Nat.lt_of_lt_of_le (Program.weightAll_withoutComments_lt_code tokens parts) hn
    have hparts := fun us hu => h us (List.mem_cons_of_mem (StringPart.code tokens) hu)
    obtain ⟨htokens, hended⟩ := h tokens List.mem_cons_self
    have hkept : R.Holds (Program.withoutComments tokens) :=
      fun t ht => htokens t (List.mem_filter.1 ht).1
    have hallows : ∀ f : Failure, f.StopsIn R (Program.withoutComments tokens) →
        R.allows f.error ∧ ∀ l, f.error.fault ≠ .lexical l := by
      intro f hf
      refine ⟨?_, hf.error.not_lexical⟩
      rcases hended with ⟨u, hu, heof⟩ | hall
      · exact hf.allowed (List.mem_filter.2 ⟨hu, by rw [heof]; rfl⟩) heof
      · exact hall _
    rw [Segment.parseAll]
    refine (ih hweight hkept).elim (fun f hf => .error (hallows f hf))
      fun e rest _ _ hleaves => ?_
    dsimp only
    rcases expectEof_cases (hkept.leaves hleaves) with ⟨_, _, -, -, _, heof⟩ | ⟨f, hf, heof⟩
    · rw [heof]
      exact (allowed_parseAll_segments (Nat.le_trans (Nat.le_of_lt hlt) hn) hparts).elim
        (fun _ he => .error he) fun _ _ => .ok trivial
    · rw [heof]
      exact .error (hallows f (hf.of_leaves hleaves))

/-- The code in a string token is whole, or its fault may be reported. -/
theorem allowed_parseAll_token {parts : List StringPart} (ht : t.token = .string parts)
    (hn : Spanned.weightAll (t :: ts) ≤ n) (h : R.Holds (t :: ts)) :
    ResultMeets (fun e : ParseError => R.allows e ∧ ∀ l, e.fault ≠ .lexical l) (fun _ => True)
      (Segment.parseAll parts) := by
  have hlt := StringPart.weightAll_lt_cons ht ts
  exact allowed_parseAll_segments ih (Nat.le_trans (Nat.le_of_lt hlt) hn) fun tokens hcode =>
    ⟨h.code ht hcode, R.code h.head ht hcode⟩

theorem stopsIn_parseKey (hn : Spanned.weightAll (t :: ts) ≤ n) (h : R.Holds (t :: ts)) :
    ResultMeets (fun f : Failure => f.StopsIn R (t :: ts)) (fun _ => t.token ≠ .eof)
      (Name.parseKey t ts) := by
  obtain ⟨token, span⟩ := t
  cases token with
  | ident text =>
    rw [Name.parseKey]
    exact .ok (by simp)
  | string parts =>
    rw [Name.parseKey]
    dsimp only
    refine (allowed_parseAll_token ih rfl hn h).elim
      (fun e he => .error ⟨.refl _, he.2, fun _ => he.1⟩) fun segments _ => ?_
    dsimp only
    split
    · exact .ok (by simp)
    · exact .error (Failure.stopsIn_stop h.head (.refl _) (by simp) (by simp))
  | _ =>
    rw [Name.parseKey]
    exact .error (Failure.stopsIn_unexpected h.head (.refl _) _)

theorem advances_parseAll_entries : ∀ {ts : List Spanned}, Spanned.weightAll ts < n →
    R.Holds ts → (Entry.parseAll ts).Advances R ts fun _ => True
  | [], _, _ => by
    rw [Entry.parseAll]
    exact .error (Failure.stopsIn_exhausted (.refl []))
  | t :: ts, hn, h => by
    rw [Entry.parseAll]
    split
    next hclose => exact .ok trivial (.cons (Token.ne_eof_of_isMark hclose) ts)
    next =>
      refine (stopsIn_parseKey ih (Nat.le_of_lt hn) h).elim (fun _ => .error) fun key hkey => ?_
      dsimp only
      have htail : Leaves (t :: ts) ts := .cons hkey ts
      refine ((advances_expectMark .colon h.tail).of_leaves htail).elim (fun _ => .error)
        fun _ afterColon lighter _ hcolon => ?_
      dsimp only
      have hlt := Nat.lt_trans lighter (t.weightAll_lt_cons ts)
      refine ((ih (Nat.lt_trans hlt hn) (h.leaves hcolon)).of_leaves hcolon).elim (fun _ => .error)
        fun value left lighter' _ hvalue => ?_
      have hleft := Nat.lt_of_le_of_lt (weightAll_skipComma_le left) (Nat.lt_trans lighter' hlt)
      have hskip := hvalue.trans (.skipComma left)
      have hothers := advances_parseAll_entries (Nat.lt_trans hleft hn) (h.leaves hskip)
      exact .weaken (.map (hothers.of_leaves hskip) fun _ _ => trivial)
termination_by ts => Spanned.weightAll ts

theorem advances_parseAll_bindings {m : Nat} : ∀ {ts : List Spanned}
    {hm : Spanned.weightAll ts < m}, Spanned.weightAll ts < n → R.Holds ts →
    (Binding.parseAll ts hm).Advances R ts fun _ => True
  | [], _, _, h => by
    rw [Binding.parseAll]
    exact .ok trivial (.refl [])
  | t :: ts, _, hn, h => by
    have hts := Nat.lt_trans (t.weightAll_lt_cons ts) hn
    rw [Binding.parseAll]
    cases ht : t.token with
    | ident text =>
      dsimp only
      have htail : Leaves (t :: ts) ts := .cons (by simp [ht]) ts
      refine ((advances_expectMark .equals h.tail).of_leaves htail).elim (fun _ => .error)
        fun _ afterEquals lighter _ hequals => ?_
      dsimp only
      have hlt := Nat.lt_trans lighter hts
      refine ((ih hlt (h.leaves hequals)).of_leaves hequals).elim (fun _ => .error)
        fun value left lighter' _ hvalue => ?_
      have hleft := Nat.lt_trans lighter' lighter
      exact .map ((advances_parseAll_bindings (Nat.lt_trans lighter' hlt)
        (h.leaves hvalue)).of_leaves hvalue) fun _ _ => trivial
    | _ => exact .ok trivial (.refl _)
termination_by ts => Spanned.weightAll ts
decreasing_by exact Nat.lt_trans hleft (t.weightAll_lt_cons ts)

theorem advances_parseLambda {start : Nat} {names : List Name} (hn : Spanned.weightAll ts < n)
    (hnames : ∀ m ∈ names, R.Marks m) (h : R.Holds ts) :
    (Expr.parseLambda start names ts).Advances R ts fun _ => True := by
  rw [Expr.parseLambda]
  cases hrepeated : Name.repeated? [] names with
  | some name =>
    obtain ⟨t, ht, hspan⟩ := hnames name (Name.mem_of_repeated? hrepeated)
    exact .error (hspan ▸ Failure.stopsIn_stop ht (.refl ts) (by simp) (by simp))
  | none =>
    dsimp only
    refine (advances_expectMark .arrow h).elim (fun _ => .error)
      fun _ rest lighter _ harrow => ?_
    have hbody := ih (Nat.lt_trans lighter hn) (h.leaves harrow)
    exact .weaken (.map (hbody.of_leaves harrow) fun _ _ => trivial)

theorem advances_parseLet (hn : Spanned.weightAll ts ≤ n) (h : R.Holds ts) :
    (Expr.parseLet ts).Advances R ts fun _ => True := by
  rw [Expr.parseLet]
  refine (advances_expectKeyword .letWord h).elim (fun _ => .error)
    fun word afterWord lighter _ hword => ?_
  dsimp only
  have hbindings : (Binding.parseAll afterWord lighter).Advances R afterWord fun _ => True :=
    advances_parseAll_bindings ih (Nat.lt_of_lt_of_le lighter hn) (h.leaves hword)
  refine (hbindings.of_leaves hword).elim (fun _ => .error)
    fun bindings left lighter₁ _ hleft => ?_
  cases bindings with
  | nil =>
    cases left with
    | nil => exact .error ⟨hleft, by simp [Failure.stop], fun hne => absurd rfl hne⟩
    | cons t left =>
      exact .error (Failure.stopsIn_stop (h.leaves hleft).head hleft (by simp) (by simp))
  | cons b bindings =>
    dsimp only
    refine ((advances_expectKeyword .inWord (h.leaves hleft)).of_leaves hleft).elim
      (fun _ => .error) fun _ afterIn lighter₂ _ hin => ?_
    have hbody := ih (Nat.lt_of_lt_of_le (Nat.lt_trans lighter₂ lighter₁) hn) (h.leaves hin)
    exact .weaken (.map (hbody.of_leaves hin) fun _ _ => trivial)

theorem advances_parseParen {start : Nat} (hn : Spanned.weightAll ts < n) (h : R.Holds ts) :
    (Expr.parseParen start ts).Advances R ts fun _ => True := by
  rw [Expr.parseParen]
  cases ParenForm.ofTokens ts with
  | noParameters =>
    dsimp only
    refine (advances_expectMark .closeParen h).elim (fun _ => .error)
      fun _ rest lighter _ hclose => ?_
    exact .weaken ((advances_parseLambda ih (Nat.lt_trans lighter hn) (List.forall_mem_nil _)
      (h.leaves hclose)).of_leaves hclose)
  | parameterList =>
    dsimp only
    refine (advances_parameters h).elim (fun _ => .error)
      fun names rest lighter hnames hleaves => ?_
    exact .weaken ((advances_parseLambda ih (Nat.lt_trans lighter hn) hnames
      (h.leaves hleaves)).of_leaves hleaves)
  | singleName =>
    dsimp only
    refine (advances_expectName h).elim (fun _ => .error)
      fun name afterName lighter hname hleaves => ?_
    dsimp only
    refine ((advances_expectMark .closeParen (h.leaves hleaves)).of_leaves hleaves).elim
      (fun _ => .error) fun _ rest lighter' _ hclose => ?_
    dsimp only
    split
    · exact .weaken ((advances_parseLambda ih (Nat.lt_trans (Nat.lt_trans lighter' lighter) hn)
        (List.forall_mem_singleton.2 hname) (h.leaves hclose)).of_leaves hclose)
    · exact .ok trivial hclose
  | group =>
    dsimp only
    refine (ih hn h).elim (fun _ => .error) fun e left lighter _ hinner => ?_
    exact .weaken (.map ((advances_expectMark .closeParen (h.leaves hinner)).of_leaves hinner)
      fun _ _ => trivial)

theorem advances_parsePostfix {m : Nat} : ∀ {ts : List Spanned} {e : Expr}
    {hm : Spanned.weightAll ts < m}, Spanned.weightAll ts < n → R.Holds ts →
    (Expr.parsePostfix e ts hm).Advances R ts fun _ => True
  | [], e, _, _, h => by
    rw [Expr.parsePostfix]
    exact .ok trivial (.refl [])
  | t :: ts, e, _, hn, h => by
    have hlt := t.weightAll_lt_cons ts
    rw [Expr.parsePostfix]
    cases ht : t.token with
    | mark mark =>
      have htail : Leaves (t :: ts) ts := .cons (by simp [ht]) ts
      cases mark with
      | dot =>
        dsimp only
        refine ((advances_expectName h.tail).of_leaves htail).elim (fun _ => .error)
          fun name afterName lighter _ hname => ?_
        have hafter := Nat.lt_trans lighter hlt
        cases afterName with
        | nil => exact .ok trivial hname
        | cons u afterName =>
          dsimp only
          split
          next hopen =>
            have htail := Nat.lt_trans (u.weightAll_lt_cons afterName) hafter
            have hrest := hname.trans (.cons (Token.ne_eof_of_isMark hopen) afterName)
            refine ((advances_parseSequence ih .closeParen (Nat.lt_trans htail hn)
              (h.leaves hrest)).of_leaves hrest).elim (fun _ => .error)
                fun r left lighter' _ hleaves => ?_
            have hleft := Nat.lt_trans lighter' htail
            exact (advances_parsePostfix (Nat.lt_trans hleft hn) (h.leaves hleaves)).of_leaves
              hleaves
          next =>
            exact (advances_parsePostfix (Nat.lt_trans hafter hn) (h.leaves hname)).of_leaves hname
      | openBracket =>
        dsimp only
        refine ((ih (Nat.lt_trans hlt hn) h.tail).of_leaves htail).elim (fun _ => .error)
          fun key afterKey lighter _ hkey => ?_
        dsimp only
        refine ((advances_expectMark .closeBracket (h.leaves hkey)).of_leaves hkey).elim
          (fun _ => .error) fun close left lighter' _ hclose => ?_
        have hleft := Nat.lt_trans (Nat.lt_trans lighter' lighter) hlt
        exact (advances_parsePostfix (Nat.lt_trans hleft hn) (h.leaves hclose)).of_leaves hclose
      | openParen =>
        dsimp only
        refine ((advances_parseSequence ih .closeParen (Nat.lt_trans hlt hn) h.tail).of_leaves
          htail).elim (fun _ => .error) fun r left lighter _ hleaves => ?_
        have hleft := Nat.lt_trans lighter hlt
        exact (advances_parsePostfix (Nat.lt_trans hleft hn) (h.leaves hleaves)).of_leaves hleaves
      | _ => exact .ok trivial (.refl _)
    | _ => exact .ok trivial (.refl _)
termination_by ts => Spanned.weightAll ts

theorem advances_parseList (hn : Spanned.weightAll ts ≤ n) (h : R.Holds ts) :
    (Expr.parseList ts).Advances R ts fun _ => True := by
  rw [Expr.parseList]
  refine (advances_expectMark .openBracket h).elim (fun _ => .error)
    fun opening rest lighter _ hopen => ?_
  have hitems := advances_parseSequence ih .closeBracket (Nat.lt_of_lt_of_le lighter hn)
    (h.leaves hopen)
  exact .weaken (.map (hitems.of_leaves hopen) fun _ _ => trivial)

theorem advances_parseMap (hn : Spanned.weightAll ts ≤ n) (h : R.Holds ts) :
    (Expr.parseMap ts).Advances R ts fun _ => True := by
  rw [Expr.parseMap]
  refine (advances_expectMark .openBrace h).elim (fun _ => .error)
    fun opening rest lighter _ hopen => ?_
  have hentries := advances_parseAll_entries ih (Nat.lt_of_lt_of_le lighter hn) (h.leaves hopen)
  exact .weaken (.map (hentries.of_leaves hopen) fun _ _ => trivial)

theorem advances_parsePrimary (hn : Spanned.weightAll (t :: ts) ≤ n) (h : R.Holds (t :: ts)) :
    (Expr.parsePrimary (t :: ts)).Advances R (t :: ts) fun _ => True := by
  have hts := Nat.lt_of_lt_of_le (t.weightAll_lt_cons ts) hn
  obtain ⟨token, span⟩ := t
  cases token with
  | int | float | ident =>
    rw [Expr.parsePrimary]
    exact .ok trivial (.cons (by simp) ts)
  | keyword w =>
    cases w with
    | trueWord | falseWord =>
      rw [Expr.parsePrimary]
      exact .ok trivial (.cons (by simp) ts)
    | _ =>
      rw [Expr.parsePrimary]
      exact .error (Failure.stopsIn_unexpected h.head (.refl _) _)
  | string parts =>
    rw [Expr.parsePrimary]
    dsimp only
    exact (allowed_parseAll_token ih rfl hn h).elim
      (fun e he => .error ⟨.refl _, he.2, fun _ => he.1⟩)
      fun segments _ => .ok trivial (.cons (by simp) ts)
  | mark m =>
    cases m with
    | openBrace =>
      rw [Expr.parsePrimary]
      exact advances_parseMap ih hn h
    | openBracket =>
      rw [Expr.parsePrimary]
      exact advances_parseList ih hn h
    | openParen =>
      rw [Expr.parsePrimary]
      exact .weaken ((advances_parseParen ih hts h.tail).of_leaves (.cons (by simp) ts))
    | _ =>
      rw [Expr.parsePrimary]
      exact .error (Failure.stopsIn_unexpected h.head (.refl _) _)
  | _ =>
    rw [Expr.parsePrimary]
    exact .error (Failure.stopsIn_unexpected h.head (.refl _) _)

end

/-- An expression is read from the front of the tokens, or the failure stops in them. -/
theorem Expr.parse_advances : ∀ ts : List Spanned, Expr.ParseAdvances R ts
  | [], _ => by
    rw [Expr.parse]
    exact .error (Failure.stopsIn_exhausted (.refl []))
  | t :: ts, h => by
    have ih : ∀ {us}, Spanned.weightAll us < Spanned.weightAll (t :: ts) →
      Expr.ParseAdvances R us := fun {us} _ => Expr.parse_advances us
    rw [Expr.parse]
    split
    · exact advances_parseLet ih (Nat.le_refl _) h
    · refine (advances_parsePrimary ih (Nat.le_refl _) h).elim (fun _ => .error)
        fun e left lighter _ hleaves => ?_
      exact (advances_parsePostfix ih lighter (h.leaves hleaves)).of_leaves hleaves
termination_by ts => Spanned.weightAll ts

/-- Tokens that are one whole expression have an end mark; a failure stops in them. -/
theorem Expr.parseWhole_cases (h : R.Holds ts) :
    (∃ e rest, (∃ t ∈ ts, t.token = .eof) ∧ (Expr.parseWhole ts).Returns e rest) ∨
      ∃ f, f.StopsIn R ts ∧ Expr.parseWhole ts = .error f := by
  rw [Expr.parseWhole]
  refine (Expr.parse_advances ts h).elim (fun f hf => .inr ⟨f, hf, rfl⟩)
    fun e left lighter _ hleaves => ?_
  dsimp only
  rcases expectEof_cases (h.leaves hleaves) with
    ⟨t, rest, ht, heof, _, hexpect⟩ | ⟨f, hf, hexpect⟩
  · rw [hexpect]
    exact .inl ⟨e, rest, ⟨t, hleaves.mem t ht, heof⟩, _, rfl⟩
  · rw [hexpect]
    exact .inr ⟨f, hf.of_leaves hleaves, rfl⟩

end ConfigExpr
