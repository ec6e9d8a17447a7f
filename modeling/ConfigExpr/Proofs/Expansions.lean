import ConfigExpr.Command.Usage
import ConfigExpr.Proofs.ArgumentNames
import ConfigExpr.Proofs.FreeNames

/-!
# Expansions

An expansion writes what evaluations would write, one for each value with that value as the last
argument, up to the first that fails; then it fails as that evaluation does
(`Expansion.output_eq_evaluations`). The two commands run the program under different numbers, and
that shows in no value.
-/

namespace ConfigExpr

/-! ## The argument for a value -/

theorem readArguments?_append {texts : List String} {arguments : List (String × Value)}
    {text : String} {argument : String × Value} (h : readArguments? texts = some arguments)
    (htext : readArgument text = .ok argument) :
    readArguments? (texts ++ [text]) = some (arguments ++ [argument]) := by
  induction texts generalizing arguments with
  | nil =>
    cases h
    simp [readArguments?, htext]
  | cons t texts ih =>
    rw [readArguments?] at h
    rw [List.cons_append, readArguments?]
    split at h
    next => cases h
    next first hfirst =>
      obtain ⟨rest, hrest, rfl⟩ := Option.map_eq_some_iff.1 h
      rw [ih hrest]
      rfl

theorem Evaluation.shown_of_not_raw {c : Evaluation} (h : c.raw = false) (value : Value) :
    c.shown value = toString value ++ "\n" := by
  cases value with
  | string text =>
    have hrender : toString (Value.string text) = Text.quote text := by
      rw [Text.quote, ← String.toList_inj]
      simp [toString, Value.render]
    rw [shown, h, hrender]
    rfl
  | _ => rfl

/-! ## The entries -/

namespace Expansion

/-- The evaluation with one of the values as its last argument. -/
def evaluation (c : Expansion) (value : String) : Evaluation :=
  ⟨c.path, c.arguments ++ [(c.parameter, readLiteral value)], false, defaultLimit⟩

section

variable (c : Expansion) (colour : Bool) (elapsed : String)
  (content : String → Except FileFault ByteArray)

/-- What the evaluation with a value leaves behind. -/
def evaluated (value : String) : Output :=
  Command.output colour elapsed content (.evaluate (c.evaluation value))

/-- A value of the parameter and what its evaluation shows. -/
def line (value : String) : String :=
  c.parameter ++ "=" ++ value ++ "\t" ++ (c.evaluated colour elapsed content value).stdout

variable {c colour elapsed content} {value : String}

variable (colour elapsed content) in
theorem evaluated_of_ok {v : Value} (h : (c.evaluation value).result (content c.path) = .ok v) :
    (c.evaluated colour elapsed content value).exit = 0 ∧
      c.line colour elapsed content value =
        c.parameter ++ "=" ++ value ++ "\t" ++ toString v ++ "\n" := by
  have hoptions : (c.evaluation value).path = c.path ∧ (c.evaluation value).raw = false :=
    ⟨rfl, rfl⟩
  simp only [line, evaluated, Command.output, hoptions.1, h, Evaluation.closing,
    Evaluation.shown_of_not_raw hoptions.2, String.append_assoc, and_self]

variable (colour elapsed content) in
theorem evaluated_of_error {p : Problem}
    (h : (c.evaluation value).result (content c.path) = .error p) :
    (c.evaluated colour elapsed content value).exit = 1 ∧
      (c.evaluated colour elapsed content value).stderr =
        (c.evaluation value).opening colour ++ p.pretty colour := by
  have hpath : (c.evaluation value).path = c.path := rfl
  simp only [evaluated, Command.output, hpath, h, Evaluation.closing, and_self]

/-- An entry has the outcome of the evaluation with its value, though not its number. -/
theorem resultFor_cases {source : String} {program : Program}
    (h : loadProgram c.path (content c.path) = .ok (source, program)) (number : Nat)
    (value : String) :
    (∃ e, c.resultFor program number value = .error e ∧
      (c.evaluation value).result (content c.path) = .error (.eval c.path source e)) ∨
    ∃ v w, c.resultFor program number value = .ok v ∧
      (c.evaluation value).result (content c.path) = .ok w ∧ toString v = toString w := by
  have hpath : (c.evaluation value).path = c.path := rfl
  have halike := Program.shownAlike_runs program ⟨0, number⟩ ⟨0, 0⟩
    (c.evaluation value).arguments defaultLimit
  have hlimit : (c.evaluation value).limit = defaultLimit := rfl
  have hresult : c.resultFor program number value =
    program.evaluateWith ⟨0, number⟩ (c.evaluation value).arguments defaultLimit := rfl
  simp only [hresult, Evaluation.result, hpath, h, hlimit]
  generalize program.evaluateWith ⟨0, number⟩ (c.evaluation value).arguments defaultLimit = x,
    program.evaluateWith ⟨0, 0⟩ (c.evaluation value).arguments defaultLimit = y at halike
  cases halike with
  | error => exact .inl ⟨_, rfl, rfl⟩
  | ok htext => exact .inr ⟨_, _, rfl, rfl, htext⟩

/-- The values shown are those before the first one whose evaluation fails. -/
theorem shown_entries {source : String} {program : Program}
    (h : loadProgram c.path (content c.path) = .ok (source, program)) (values : List String)
    (k : Nat) {text : String} {error : Option EvalError}
    (hshown : c.shown ((values.zipIdx k).map fun (value, i) =>
      ⟨value, c.resultFor program i value, elapsed⟩) = (text, error)) :
    text = String.join ((values.takeWhile fun v =>
      (c.evaluated colour elapsed content v).exit = 0).map (c.line colour elapsed content)) ∧
    (error = none → ∀ v ∈ values, (c.evaluated colour elapsed content v).exit = 0) ∧
    ∀ e, error = some e → ∃ v,
      values.find? (fun v => (c.evaluated colour elapsed content v).exit ≠ 0) = some v ∧
        (c.evaluation v).result (content c.path) = .error (.eval c.path source e) := by
  induction values generalizing k text error with
  | nil =>
    cases hshown
    exact ⟨rfl, fun _ => List.forall_mem_nil _, nofun⟩
  | cons value values ih =>
    rw [List.zipIdx_cons, List.map_cons, shown] at hshown
    dsimp only at hshown
    rcases resultFor_cases h k value with ⟨e, hentry, hresult⟩ | ⟨v, w, hentry, hresult, htext⟩
    · rw [hentry] at hshown
      cases hshown
      obtain ⟨hexit, -⟩ := evaluated_of_error colour elapsed content hresult
      refine ⟨by simp [hexit], nofun, ?_⟩
      rintro _ ⟨⟩
      exact ⟨value, by simp [hexit], hresult⟩
    · rcases hrest : c.shown ((values.zipIdx (k + 1)).map fun (value, i) =>
        ⟨value, c.resultFor program i value, elapsed⟩) with ⟨others, error'⟩
      rw [hentry, hrest] at hshown
      cases hshown
      obtain ⟨hexit, hline⟩ := evaluated_of_ok colour elapsed content hresult
      obtain ⟨hothers, hall, herror⟩ := ih (k + 1) hrest
      refine ⟨?_, fun hnone => List.forall_mem_cons.2 ⟨hexit, hall hnone⟩, fun e he => ?_⟩
      · rw [List.takeWhile_cons_of_pos (by simpa using hexit), List.map_cons, String.join_cons,
          ← hothers, hline, htext]
      · obtain ⟨u, hu, hresult⟩ := herror e he
        exact ⟨u, by rw [List.find?_cons_of_neg (by simp [hexit]), hu], hresult⟩

theorem not_all_of_find? {values : List String} (h : values.find? (fun v =>
    (c.evaluated colour elapsed content v).exit ≠ 0) = some value) :
    ¬ ∀ v ∈ values, (c.evaluated colour elapsed content v).exit = 0 := by
  intro hall
  have hexit := List.find?_some h
  rw [hall value (List.mem_of_find?_eq_some h)] at hexit
  cases hexit

theorem result_of_load_error {p : Problem} (h : loadProgram c.path (content c.path) = .error p)
    (value : String) : (c.evaluation value).result (content c.path) = .error p := by
  have hpath : (c.evaluation value).path = c.path := rfl
  simp only [Evaluation.result, hpath, h]

theorem output_of_load_error {p : Problem}
    (h : loadProgram c.path (content c.path) = .error p) :
    Command.output colour elapsed content (.expand c) =
      ⟨1, "", c.opening colour ++ p.pretty colour⟩ := by
  simp only [Command.output, h]
  rfl

variable (colour) in
theorem output_of_shown {source : String} {program : Program} {text : String}
    (h : loadProgram c.path (content c.path) = .ok (source, program))
    (hshown : c.shown (c.entries program elapsed) = (text, none)) :
    ∃ stderr, Command.output colour elapsed content (.expand c) = ⟨0, text, stderr⟩ := by
  simp only [Command.output, h, Except.map, closing, hshown]
  exact ⟨_, rfl⟩

variable (colour) in
theorem output_of_shown_error {source : String} {program : Program} {text : String}
    {e : EvalError} (h : loadProgram c.path (content c.path) = .ok (source, program))
    (hshown : c.shown (c.entries program elapsed) = (text, some e)) :
    ∃ status, Command.output colour elapsed content (.expand c) =
      ⟨1, text, c.opening colour ++ status ++ (Problem.eval c.path source e).pretty colour⟩ := by
  simp only [Command.output, h, Except.map, closing, hshown]
  refine ⟨String.join ((c.entries program elapsed).map (c.entryLine colour)) ++
    Status.evaluated.line colour ("in " ++ elapsed), ?_⟩
  simp only [String.append_assoc]

end

/-- An expansion writes what the evaluations for its values write, each with the value as the last
argument, up to the first that fails, and then fails with the same problem. -/
theorem output_eq_evaluations {c : Expansion} {texts : List String}
    (hparameter : isBareKey c.parameter = true)
    (htexts : readArguments? texts = some c.arguments) (hvalues : c.values ≠ []) (colour : Bool)
    (elapsed : String) (content : String → Except FileFault ByteArray) :
    (∀ v, readArguments? (texts ++ [c.parameter ++ "=" ++ v]) =
      some (c.evaluation v).arguments) ∧
    (Command.output colour elapsed content (.expand c)).stdout =
      String.join ((c.values.takeWhile fun v =>
        (c.evaluated colour elapsed content v).exit = 0).map (c.line colour elapsed content)) ∧
    ((Command.output colour elapsed content (.expand c)).exit = 0 ↔
      ∀ v ∈ c.values, (c.evaluated colour elapsed content v).exit = 0) ∧
    ∀ v, c.values.find? (fun v => (c.evaluated colour elapsed content v).exit ≠ 0) = some v →
      ∃ p status, (c.evaluation v).result (content c.path) = .error p ∧
        (c.evaluated colour elapsed content v).stderr =
          (c.evaluation v).opening colour ++ p.pretty colour ∧
        (Command.output colour elapsed content (.expand c)).stderr =
          c.opening colour ++ status ++ p.pretty colour := by
  refine ⟨fun v => readArguments?_append htexts (readArgument_of_isBareKey hparameter v), ?_⟩
  cases hload : loadProgram c.path (content c.path) with
  | error p =>
    have hresult := result_of_load_error hload
    have hfails := fun v => evaluated_of_error colour elapsed content (hresult v)
    obtain ⟨value, values, hvalues⟩ := List.exists_cons_of_ne_nil hvalues
    have hfind : (value :: values).find? (fun v =>
        (c.evaluated colour elapsed content v).exit ≠ 0) = some value := by
      simp [(hfails value).1]
    rw [output_of_load_error hload, hvalues]
    refine ⟨?_, iff_of_false Nat.one_ne_zero (not_all_of_find? hfind), fun v _ =>
      ⟨p, "", hresult v, (hfails v).2, ?_⟩⟩
    · simp [(hfails value).1]
    · rw [String.append_empty]
  | ok loaded =>
    obtain ⟨source, program⟩ := loaded
    rcases hshown : c.shown (c.entries program elapsed) with ⟨text, error⟩
    obtain ⟨htext, hall, herror⟩ := shown_entries hload c.values 0 hshown
    cases error with
    | none =>
      obtain ⟨stderr, hout⟩ := output_of_shown colour hload hshown
      rw [hout]
      exact ⟨htext, iff_of_true rfl (hall rfl), fun v hv => absurd (hall rfl) (not_all_of_find? hv)⟩
    | some e =>
      obtain ⟨v, hv, hresult⟩ := herror e rfl
      obtain ⟨status, hout⟩ := output_of_shown_error colour hload hshown
      rw [hout]
      refine ⟨htext, iff_of_false Nat.one_ne_zero (not_all_of_find? hv), fun u hu => ?_⟩
      cases hu.symm.trans hv
      exact ⟨_, status, hresult, (evaluated_of_error colour elapsed content hresult).2, rfl⟩

/-- Takes an item of a list of one by its position. -/
def itemByPosition : Expansion :=
  ⟨"item", "x", ["0", "1", "0"], [("y", .int 2)]⟩

def itemContent (_ : String) : Except FileFault ByteArray :=
  .ok "[y][x]".toUTF8

set_option maxRecDepth 8000 in
/-- The second position is out of bounds, and the third is not shown any more. -/
theorem output_eq_evaluations_item :
    isBareKey itemByPosition.parameter = true ∧
      readArguments? ["y=2"] = some itemByPosition.arguments ∧ itemByPosition.values ≠ [] ∧
      (Command.output false "0.00s" itemContent (.expand itemByPosition)).stdout = "x=0\t2\n" ∧
      (Command.output false "0.00s" itemContent (.expand itemByPosition)).exit ≠ 0 := by
  have hparameter : isBareKey itemByPosition.parameter = true := by decide
  have htexts : readArguments? ["y=2"] = some itemByPosition.arguments := by cbv
  have hvalues : itemByPosition.values = ["0", "1", "0"] := rfl
  have hfirst : (itemByPosition.evaluation "0").result (itemContent "item") = .ok (.int 2) := by
    cbv
  have hsecond : (itemByPosition.evaluation "1").result (itemContent "item") =
      .error (.eval "item" "[y][x]" ⟨.outOfBounds 1 1, ⟨4, 5⟩⟩) := by cbv
  obtain ⟨hexit, hline⟩ := evaluated_of_ok false "0.00s" itemContent hfirst
  obtain ⟨hexit', -⟩ := evaluated_of_error false "0.00s" itemContent hsecond
  have hne : itemByPosition.values ≠ [] := List.cons_ne_nil _ _
  obtain ⟨-, hstdout, hsuccess, -⟩ :=
    output_eq_evaluations hparameter htexts hne false "0.00s" itemContent
  refine ⟨hparameter, htexts, hne, ?_, fun hzero => ?_⟩
  · rw [hstdout, hvalues, List.takeWhile_cons_of_pos (by simpa using hexit),
      List.takeWhile_cons_of_neg (by simp [hexit']), List.map_singleton, hline]
    decide
  · have hall := hsuccess.1 hzero "1" (by decide)
    rw [hexit'] at hall
    cases hall

end Expansion

end ConfigExpr
