import ConfigExpr.Command.Evaluate
import ConfigExpr.Command.Session

/-!
# Command lines

The words of a command line name a command, its options and its operands. The value of an option
is attached to it or the next word; a next word that looks like an option is no value. After a
word of two hyphens all words are operands.
-/

namespace ConfigExpr

inductive Command where
  | evaluate (c : Evaluation)
  | expand (c : Expansion)
  | session
  | listing

/-- The options of all commands. -/
inductive CommandOption where
  | argument
  | raw
  | limit
  | parameter
  | values
  deriving DecidableEq

namespace CommandOption

def long : CommandOption → String
  | .argument => "arg"
  | .raw => "raw"
  | .limit => "max-depth"
  | .parameter => "param"
  | .values => "values"

def short? : CommandOption → Option Char
  | .argument => some 'a'
  | .raw => none
  | .limit => none
  | .parameter => some 'p'
  | .values => some 'v'

def takesValue : CommandOption → Bool
  | .raw => false
  | _ => true

end CommandOption

/-- An operand, or an option with its value, empty for one that takes none. -/
inductive Operand where
  | word (text : String)
  | option (option : CommandOption) (value : String)

/-- A word that begins with a hyphen and has more is an option. -/
def looksLikeOption (word : String) : Bool :=
  match word.toList with
  | '-' :: _ :: _ => true
  | _ => false

/-- How an option is written in a word: with its value attached or without. -/
structure OptionWord where
  option : CommandOption
  attached : Option String

/-- A word of two hyphens and a name, or of one hyphen and a letter. -/
def OptionWord.ofWord? (options : List CommandOption) (word : List Char) : Option OptionWord :=
  match word with
  | '-' :: '-' :: text =>
    let name := String.ofList (text.takeWhile (· != '='))
    let attached := match text.dropWhile (· != '=') with
      | [] => none
      | _ :: value => some (String.ofList value)
    (options.find? (·.long == name)).map (⟨·, attached⟩)
  | '-' :: letter :: text =>
    let attached := match text with
      | [] => none
      | '=' :: value => some (String.ofList value)
      | value => some (String.ofList value)
    (options.find? (·.short? == some letter)).map (⟨·, attached⟩)
  | _ => none

/-- Reads all words but the command. -/
def Operand.readAll? (options : List CommandOption) : List String → Option (List Operand)
  | [] => some []
  | w :: words =>
    if w = "--" then some (words.map .word)
    else if !looksLikeOption w then (readAll? options words).map (.word w :: ·)
    else
      match OptionWord.ofWord? options w.toList with
      | none => none
      | some ⟨o, some value⟩ =>
        if o.takesValue then (readAll? options words).map (.option o value :: ·) else none
      | some ⟨o, none⟩ =>
        if !o.takesValue then (readAll? options words).map (.option o "" :: ·)
        else
          match words with
          | [] => none
          | value :: others =>
            if looksLikeOption value then none
            else (readAll? options others).map (.option o value :: ·)

/-- The words that are no options. -/
def operandWords : List Operand → List String
  | [] => []
  | .word text :: others => text :: operandWords others
  | .option _ _ :: others => operandWords others

/-- The values given to an option, in order. -/
def optionValues (option : CommandOption) : List Operand → List String
  | [] => []
  | .word _ :: others => optionValues option others
  | .option o value :: others =>
    if o = option then value :: optionValues option others else optionValues option others

/-- The one operand, which is the path of a file and not empty. -/
def pathOperand? (operands : List Operand) : Option String :=
  match operandWords operands with
  | [path] => if path.isEmpty then none else some path
  | _ => none

def readArguments? : List String → Option (List (String × Value))
  | [] => some []
  | text :: others =>
    match readArgument text with
    | .error _ => none
    | .ok argument => (readArguments? others).map (argument :: ·)

/-- A number of digits, with or without a plus sign, that fits into 64 bits. -/
def readCount? (text : String) : Option Nat :=
  let digits := match text.toList with
    | '+' :: digits => digits
    | digits => digits
  if digits.isEmpty || !digits.all Char.isDigit then none
  else
    let n := Nat.ofDigitChars 10 digits 0
    if n < 0x10000000000000000 then some n else none

def readEvaluation? (words : List String) : Option Evaluation := do
  let operands ← Operand.readAll? [.argument, .raw, .limit] words
  let path ← pathOperand? operands
  let arguments ← readArguments? (optionValues .argument operands)
  let raw ← match optionValues .raw operands with
    | [] => some false
    | [_] => some true
    | _ => none
  let limit ← match optionValues .limit operands with
    | [] => some defaultLimit
    | [text] => readCount? text
    | _ => none
  return ⟨path, arguments, raw, limit⟩

def readExpansion? (words : List String) : Option Expansion := do
  let operands ← Operand.readAll? [.argument, .parameter, .values] words
  let path ← pathOperand? operands
  let arguments ← readArguments? (optionValues .argument operands)
  let parameter ← match optionValues .parameter operands with
    | [parameter] => some parameter
    | _ => none
  let values := (optionValues .values operands).flatMap fun text =>
    (text.toList.splitOn ',').map String.ofList
  if values.isEmpty then none else return ⟨path, parameter, values, arguments⟩

/-- A command that takes no words. -/
def readAlone? (command : Command) (words : List String) : Option Command :=
  match Operand.readAll? [] words with
  | some [] => some command
  | _ => none

/-- The command of a command line, or `none` for one that is not well formed. -/
def Command.ofWords? : List String → Option Command
  | "eval" :: words => (readEvaluation? words).map .evaluate
  | "matrix" :: words => (readExpansion? words).map .expand
  | "repl" :: words => readAlone? .session words
  | "tokens" :: words => readAlone? .listing words
  | _ => none

/-- What a command writes that reads a file, given the content of each path, the exit status and
what it writes; every time is shown by the same text. -/
def Command.output (colour : Bool) (elapsed : String)
    (content : String → Except FileFault ByteArray) : Command → Output
  | .evaluate c =>
    let closing := c.closing colour elapsed (c.result (content c.path))
    { closing with stderr := c.opening colour ++ closing.stderr }
  | .expand c =>
    let result := (loadProgram c.path (content c.path)).map fun (source, program) =>
      (source, c.entries program elapsed)
    let closing := c.closing colour elapsed result
    { closing with stderr := c.opening colour ++ closing.stderr }
  | .session | .listing => ⟨0, Session.prompt, ""⟩

end ConfigExpr
