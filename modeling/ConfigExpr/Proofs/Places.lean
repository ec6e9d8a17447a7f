import ConfigExpr.Proofs.Everywhere
import ConfigExpr.Proofs.Tiles

/-!
# Where expressions stand

The direct parts of an expression, with its names and keys, stand one after the other in its span
(`Expr.Placed`). So do the tokens that a rule of the parser is given (`Laid`), and from the place of
the first token and that of the last comes the place of the expression read
(`Expr.Sits.of_cover`).
-/

namespace ConfigExpr

namespace Span

variable {source : List Char} {lo mid hi : Nat} {s t : Span} {ss ss' : List Span}

theorem Chain.exists_of_append (h : Chain lo hi (ss ++ ss')) :
    ∃ mid, Chain lo mid ss ∧ Chain mid hi ss' := by
  induction ss generalizing lo with
  | nil => exact ⟨lo, Nat.le_refl lo, h⟩
  | cons s ss ih =>
    obtain ⟨mid, hss, hss'⟩ := ih h.2.2
    exact ⟨mid, ⟨h.1, h.2.1, hss⟩, hss'⟩

theorem Chain.sublist (h : Chain lo hi ss) (hsub : ss'.Sublist ss) : Chain lo hi ss' := by
  induction hsub generalizing lo with
  | slnil => exact h
  | cons s _ ih => exact ih (h.2.2.of_le (Nat.le_trans h.1 h.2.1))
  | cons_cons s _ ih => exact ⟨h.1, h.2.1, ih h.2.2⟩

theorem Within.cover (hs : s.Within source) (ht : t.Within source) (hle : s.start ≤ t.stop) :
    (⟨s.start, t.stop⟩ : Span).Within source :=
  ⟨hle, ht.stop_le, hs.start, ht.stop⟩

theorem within_zero (source : List Char) : (point 0).Within source :=
  have hzero : Boundary source 0 := ⟨[], List.nil_prefix, rfl⟩
  ⟨Nat.le_refl 0, Nat.zero_le _, hzero, hzero⟩

theorem Within.point_stop (hs : s.Within source) : (point s.stop).Within source :=
  ⟨Nat.le_refl _, hs.stop_le, hs.stop, hs.stop⟩

/-- The spans follow one another between two positions of the source. -/
structure Row (source : List Char) (lo hi : Nat) (ss : List Span) : Prop where
  chain : Chain lo hi ss
  within : ∀ s ∈ ss, s.Within source

namespace Row

theorem nil (hle : lo ≤ hi) : Row source lo hi [] :=
  ⟨hle, List.forall_mem_nil _⟩

theorem cons (hs : s.Within source) (hle : lo ≤ s.start) (h : Row source s.stop hi ss) :
    Row source lo hi (s :: ss) :=
  ⟨⟨hle, hs.start_le_stop, h.chain⟩, List.forall_mem_cons.2 ⟨hs, h.within⟩⟩

theorem le (h : Row source lo hi ss) : lo ≤ hi :=
  h.chain.le

theorem of_le {lo' : Nat} (h : Row source lo hi ss) (hle : lo' ≤ lo) : Row source lo' hi ss :=
  ⟨h.chain.of_le hle, h.within⟩

theorem append (h : Row source lo mid ss) (h' : Row source mid hi ss') :
    Row source lo hi (ss ++ ss') :=
  ⟨h.chain.append h'.chain, List.forall_mem_append.2 ⟨h.within, h'.within⟩⟩

theorem extend {hi' : Nat} (h : Row source lo hi ss) (hle : hi ≤ hi') : Row source lo hi' ss :=
  List.append_nil ss ▸ h.append (nil hle)

end Row

/-- The spans follow one another from a position up to a closing span, which ends at `stop`. -/
def Closed (source : List Char) (lo : Nat) (ss : List Span) (stop : Nat) : Prop :=
  ∃ close : Span, close.Within source ∧ close.start < close.stop ∧ close.stop = stop ∧
    Row source lo close.start ss

theorem Closed.of_le {lo' stop : Nat} (h : Closed source lo ss stop) (hle : lo' ≤ lo) :
    Closed source lo' ss stop := by
  obtain ⟨close, hclose, hlt, hstop, hrow⟩ := h
  exact ⟨close, hclose, hlt, hstop, hrow.of_le hle⟩

theorem Closed.cons {stop : Nat} (hs : s.Within source) (hle : lo ≤ s.start)
    (h : Closed source s.stop ss stop) : Closed source lo (s :: ss) stop := by
  obtain ⟨close, hclose, hlt, hstop, hrow⟩ := h
  exact ⟨close, hclose, hlt, hstop, .cons hs hle hrow⟩

end Span

/-! ## Expressions -/

namespace Expr

/-- The span of an expression lies in the source and is not empty, and what is directly in the
expression stands one after the other in it. -/
structure Placed (source : List Char) (e : Expr) : Prop where
  within : e.span.Within source
  start_lt_stop : e.span.start < e.span.stop
  row : Span.Row source e.span.start e.span.stop e.places

/-- An expression that begins at a position or after it and is placed with all its parts. -/
structure Sits (source : List Char) (lo : Nat) (e : Expr) : Prop where
  le_start : lo ≤ e.span.start
  everywhere : e.Everywhere (Placed source)

variable {source : List Char} {lo : Nat} {e : Expr}

theorem Sits.placed (h : e.Sits source lo) : e.Placed source :=
  h.everywhere.self

theorem Sits.of_le {lo' : Nat} (h : e.Sits source lo) (hle : lo' ≤ lo) : e.Sits source lo' :=
  ⟨Nat.le_trans hle h.le_start, h.everywhere⟩

/-- The expression stands from the start of a first place up to the end of a last one. -/
theorem Sits.of_cover {first last : Span} (hspan : e.span = ⟨first.start, last.stop⟩)
    (hfirst : first.Within source) (hlast : last.Within source) (hle : lo ≤ first.start)
    (hlt : first.start < last.stop) (hrow : Span.Row source first.start last.stop e.places)
    (hparts : ∀ x ∈ e.parts, x.Everywhere (Placed source)) : e.Sits source lo := by
  refine ⟨hspan ▸ hle, .intro ⟨hspan ▸ ?_, hspan ▸ hlt, hspan ▸ hrow⟩ hparts⟩
  exact hfirst.cover hlast (Nat.le_of_lt hlt)

/-- The expression stands from the start of a first place up to a closing mark. -/
theorem Sits.of_closed {first : Span} {stop : Nat} (hspan : e.span = ⟨first.start, stop⟩)
    (hfirst : first.Within source) (hle : lo ≤ first.start)
    (hclosed : Span.Closed source first.start e.places stop)
    (hparts : ∀ x ∈ e.parts, x.Everywhere (Placed source)) : e.Sits source lo := by
  obtain ⟨close, hclose, hlt, rfl, hrow⟩ := hclosed
  exact .of_cover hspan hfirst hclose hle (Nat.lt_of_le_of_lt hrow.le hlt)
    (hrow.extend (Nat.le_of_lt hlt)) hparts

end Expr

/-! ## Tokens -/

/-- Some of the tokens, at any depth, that a source is read as. -/
structure SourceTokens (source : List Char) where
  holds : Spanned → Prop
  readIn : ∀ {t}, holds t → t.ReadIn source

variable {source : List Char} {T : SourceTokens source} {lo mid hi : Nat} {t : Spanned}
  {ts : List Spanned}

/-- The span is that of one of the tokens. -/
def SourceTokens.Marks (T : SourceTokens source) (s : Span) : Prop :=
  ∃ t, T.holds t ∧ t.span = s

theorem SourceTokens.Marks.within {s : Span} (h : T.Marks s) : s.Within source := by
  obtain ⟨t, ht, rfl⟩ := h
  exact (T.readIn ht).within

/-- The tokens stand one after the other between two positions. -/
structure Laid (T : SourceTokens source) (lo hi : Nat) (ts : List Spanned) : Prop where
  chain : Span.Chain lo hi (ts.map (·.span))
  everywhere : ∀ t ∈ ts, t.Everywhere T.holds

namespace Laid

theorem of_le {lo' : Nat} (h : Laid T lo hi ts) (hle : lo' ≤ lo) : Laid T lo' hi ts :=
  ⟨h.chain.of_le hle, h.everywhere⟩

theorem le (h : Laid T lo hi ts) : lo ≤ hi :=
  h.chain.le

theorem head (h : Laid T lo hi (t :: ts)) : t.Everywhere T.holds :=
  h.everywhere t List.mem_cons_self

theorem holds (h : Laid T lo hi (t :: ts)) : T.holds t :=
  h.head.self

theorem within (h : Laid T lo hi (t :: ts)) : t.span.Within source :=
  (T.readIn h.holds).within

theorem le_start (h : Laid T lo hi (t :: ts)) : lo ≤ t.span.start :=
  h.chain.1

theorem start_lt_stop (h : Laid T lo hi (t :: ts)) (ht : t.token ≠ .eof) :
    t.span.start < t.span.stop :=
  (T.readIn h.holds).start_lt_stop ht

theorem tail (h : Laid T lo hi (t :: ts)) : Laid T t.span.stop hi ts :=
  ⟨h.chain.2.2, fun u hu => h.everywhere u (List.mem_cons_of_mem t hu)⟩

theorem sublist {us : List Spanned} (h : Laid T lo hi ts) (hsub : us.Sublist ts) :
    Laid T lo hi us :=
  ⟨h.chain.sublist (hsub.map _), fun u hu => h.everywhere u (hsub.subset hu)⟩

/-- The tokens in a string stand in its span. -/
theorem parts {parts : List StringPart} (h : Laid T lo hi (t :: ts))
    (ht : t.token = .string parts) :
    Laid T t.span.start t.span.stop (parts.flatMap StringPart.tokens) := by
  have hinner : t.inner = parts.flatMap StringPart.tokens := by rw [Spanned.inner, ht]
  rw [← hinner]
  exact ⟨(T.readIn h.holds).chain, fun u hu => h.head.inner hu⟩

theorem exists_of_append {us : List Spanned} (h : Laid T lo hi (ts ++ us)) :
    ∃ mid, Laid T lo mid ts ∧ Laid T mid hi us := by
  have hchain := h.chain
  rw [List.map_append] at hchain
  obtain ⟨mid, hts, hus⟩ := hchain.exists_of_append
  exact ⟨mid, ⟨hts, fun t ht => h.everywhere t (List.mem_append_left us ht)⟩,
    hus, fun u hu => h.everywhere u (List.mem_append_right ts hu)⟩

end Laid

end ConfigExpr
