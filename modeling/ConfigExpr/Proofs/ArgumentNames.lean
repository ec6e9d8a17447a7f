import ConfigExpr.Expr.Render
import ConfigExpr.Proofs.Arguments
import ConfigExpr.Proofs.Scalars

/-!
# Names of arguments

An argument is accepted where the text before its first equals sign is a name with or without
blank characters around it, and that text is what its value is bound to. A program that is this
text has the value of the argument if the name has no blank characters around it, and otherwise
fails, as the name in it is not bound (`readArgument_binds`).
-/

namespace ConfigExpr

/-! ## The text before the equals sign -/

/-- A text has one token, and that a name, if it is a name between blank characters. -/
theorem Token.only?_eq_ident_iff {text : List Char} {name : String} :
    only? text = some (.ident name) ↔ isBareKey name = true ∧ Text.trim text = name.toList :=
  (only?_eq_some_iff (t := .ident name) nofun rfl).trans spelt_ident_iff

theorem splitAtEquals?_eq_some_iff {text name value : List Char} :
    splitAtEquals? text = some (name, value) ↔ text = name ++ '=' :: value ∧ '=' ∉ name := by
  unfold splitAtEquals?
  constructor
  · intro h
    split at h
    next => cases h
    next c rest hdrop =>
      cases h
      have hhead : (c != '=') = false := head?_dropWhile_eq_false c (by rw [hdrop]; rfl)
      have hc : c = '=' := by simpa using hhead
      subst hc
      refine ⟨?_, fun hmem => by simpa using List.mem_takeWhile_imp hmem⟩
      rw [← hdrop, List.takeWhile_append_dropWhile]
  · rintro ⟨rfl, hname⟩
    have hne : ∀ c ∈ name, (c != '=') = true := fun c hc => bne_iff_ne.2 fun h => hname (h ▸ hc)
    have hequals : ∀ c ∈ ('=' :: value).head?, (c != '=') = false := by simp
    obtain ⟨htake, hdrop⟩ := takeWhile_dropWhile_append hne hequals
    rw [htake, hdrop]

theorem readArgument_eq_ok_iff {argument name : String} {value : Value} :
    readArgument argument = .ok (name, value) ↔
      ∃ text, argument.toList = name.toList ++ '=' :: text ∧ '=' ∉ name.toList ∧
        isBareKey (String.ofList (Text.trim name.toList)) = true ∧
        value = readLiteral (String.ofList text) := by
  constructor
  · intro h
    unfold readArgument at h
    split at h
    next => cases h
    next before text hsplit =>
      split at h
      next key hkey =>
        cases h
        obtain ⟨htext, hequals⟩ := splitAtEquals?_eq_some_iff.1 hsplit
        obtain ⟨hbare, htrim⟩ := Token.only?_eq_ident_iff.1 hkey
        rw [String.toList_ofList]
        refine ⟨text, htext, hequals, ?_, rfl⟩
        rwa [htrim, String.ofList_toList]
      next => cases h
  · rintro ⟨text, htext, hequals, hbare, rfl⟩
    have hsplit := splitAtEquals?_eq_some_iff.2 ⟨htext, hequals⟩
    have hkey := Token.only?_eq_ident_iff.2 ⟨hbare, String.toList_ofList.symm⟩
    simp only [readArgument, hsplit, hkey, String.ofList_toList]

theorem isWordRest_of_isBareKey {name : String} (h : isBareKey name = true) :
    ∀ c ∈ name.toList, isWordRest c = true := by
  unfold isBareKey at h
  split at h
  · cases h
  next c cs hname =>
    simp only [Bool.and_eq_true, List.all_eq_true] at h
    rw [hname]
    exact List.forall_mem_cons.2 ⟨isWordRest_of_isWordStart h.1.1, h.1.2⟩

/-- An argument with a name before the first equals sign is read as that name and the value. -/
theorem readArgument_of_isBareKey {name : String} (h : isBareKey name = true) (value : String) :
    readArgument (name ++ "=" ++ value) = .ok (name, readLiteral value) := by
  have hword := isWordRest_of_isBareKey h
  have htrim : Text.trim name.toList = name.toList :=
    Text.trim_eq_self fun c hc => isBlank_of_isWordRest (hword c hc)
  refine readArgument_eq_ok_iff.2 ⟨value.toList, by simp, fun hequals => ?_, ?_, ?_⟩
  · cases hword '=' hequals
  · rwa [htrim, String.ofList_toList]
  · rw [String.ofList_toList]

/-! ## Programs of one name -/

/-- With one argument only its name is bound. -/
theorem lookup?_argumentEnv_single (run : Run) (name key : String) (value : Value) :
    (Program.argumentEnv run [(name, value)]).lookup? key =
      if name = key then some value else none := by
  rw [Env.lookup?_eq_find?_bindings, Program.bindings_argumentEnv]
  by_cases h : name = key <;> simp [h]

theorem readLiteral_ne_closure (text : String) (c : Closure) : readLiteral text ≠ .closure c := by
  intro h
  unfold readLiteral at h
  split at h <;> cases h

/-- An argument is accepted if the text before its first equals sign is a name between blank
characters. The program that is this text has the value of the argument if there are no blank
characters, and otherwise fails, as the name in it is not bound. -/
theorem readArgument_binds (argument : String) :
    (∀ name value, readArgument argument = .ok (name, value) ↔
      ∃ text, argument.toList = name.toList ++ '=' :: text ∧ '=' ∉ name.toList ∧
        isBareKey (String.ofList (Text.trim name.toList)) = true ∧
        value = readLiteral (String.ofList text)) ∧
    ∀ name value, readArgument argument = .ok (name, value) →
      ∃ p s, Program.parse name = .ok p ∧ ∀ run limit, 0 < limit →
        let key := String.ofList (Text.trim name.toList)
        p.evaluateWith run [(name, value)] limit =
          if name = key then .ok value else .error ⟨.unbound key, s⟩ := by
  refine ⟨fun _ _ => readArgument_eq_ok_iff, fun name value h => ?_⟩
  obtain ⟨text, -, -, hbare, rfl⟩ := readArgument_eq_ok_iff.1 h
  have hkey := Token.only?_eq_ident_iff.2 ⟨hbare, String.toList_ofList.symm⟩
  obtain ⟨s, hparse⟩ := Program.parse_of_only? hkey
  refine ⟨_, s, hparse _ rfl, fun run limit hlimit => ?_⟩
  obtain ⟨depth, rfl⟩ := Nat.exists_eq_succ_of_ne_zero (Nat.ne_of_gt hlimit)
  intro key
  have hlookup := lookup?_argumentEnv_single run name key (readLiteral (String.ofList text))
  by_cases hname : name = key
  · rw [if_pos hname] at hlookup ⊢
    refine Program.evaluateWith_of_evaluateIn (readLiteral_ne_closure _) ?_
    simp only [Program.evaluateIn, Expr.eval, Expr.step, key, hlookup]
  · rw [if_neg hname] at hlookup ⊢
    simp only [Program.evaluateWith, Program.evaluateIn, Expr.eval, Expr.step, key, hlookup]
    rfl

/-- An argument with a plain name is accepted and bound to what a program calls it. -/
theorem readArgument_binds_os :
    readArgument "os=linux" = .ok ("os", .string "linux") ∧
      ∃ p, Program.parse "os" = .ok p ∧
        p.evaluateWith ⟨0, 0⟩ [("os", .string "linux")] 256 = .ok (.string "linux") := by
  have hread : readArgument "os=linux" = .ok ("os", .string "linux") := by cbv
  obtain ⟨p, s, hparse, heval⟩ := (readArgument_binds "os=linux").2 _ _ hread
  have hkey : String.ofList (Text.trim "os".toList) = "os" := by cbv
  have hvalue := heval ⟨0, 0⟩ 256 (by decide)
  rw [hkey] at hvalue
  exact ⟨hread, p, hparse, hvalue⟩

/-- An argument is accepted whose name no program can refer to, as it begins with a blank. -/
theorem readArgument_blank :
    readArgument " os=linux" = .ok (" os", .string "linux") ∧ isBareKey " os" = false ∧
      ∃ p, Program.parse " os" = .ok p ∧
        p.evaluateWith ⟨0, 0⟩ [(" os", .string "linux")] 256 =
          .error ⟨.unbound "os", ⟨1, 3⟩⟩ := by
  have hread : readArgument " os=linux" = .ok (" os", .string "linux") := by cbv
  have hparse : Program.parse " os" = .ok ⟨.name ⟨"os", ⟨1, 3⟩⟩, []⟩ := by cbv
  exact ⟨hread, by decide, _, hparse, rfl⟩

end ConfigExpr
