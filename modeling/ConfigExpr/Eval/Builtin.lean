import ConfigExpr.Eval.Error

/-!
# Built-in functions

The functions that a name in call position stands for where it is not bound. `joinLists` and
`mergeMaps` are the two that call no closure.
-/

namespace ConfigExpr

inductive Builtin where
  | concat
  | merge
  | fold
  deriving DecidableEq

def Builtin.ofName? : String → Option Builtin
  | "concat" => some .concat
  | "merge" => some .merge
  | "fold" => some .fold
  | _ => none

/-- Gives a key a value: in place where it has one, else at the end. -/
def Field.put (fields : List Field) (key : String) (value : Value) : List Field :=
  match fields with
  | [] => [⟨key, value⟩]
  | f :: fs => if f.key = key then ⟨key, value⟩ :: fs else f :: Field.put fs key value

/-- The fields of a map, then those of another, which win where both have a key. -/
def Field.putAll (fields others : List Field) : List Field :=
  others.foldl (fun fs f => Field.put fs f.key f.value) fields

/-- The items of all lists in order. -/
def joinLists : List Value → Except EvalFault (List Value)
  | [] => .ok []
  | .list items :: others =>
    match joinLists others with
    | .ok joined => .ok (items ++ joined)
    | .error fault => .error fault
  | other :: _ => .error (.mismatch .list other.kind)

/-- The fields of all maps put one after the other into the fields given. -/
def putMaps (fields : List Field) : List Value → Except EvalFault (List Field)
  | [] => .ok fields
  | .map others :: maps => putMaps (Field.putAll fields others) maps
  | other :: _ => .error (.mismatch .map other.kind)

def concatValues (arguments : List Value) : Except EvalFault Value :=
  if arguments.isEmpty then .error (.arity 1 0)
  else
    match joinLists arguments with
    | .ok items => .ok (.list items)
    | .error fault => .error fault

/-- A single list stands for its items. -/
def mergeOperands : List Value → List Value
  | [.list items] => items
  | arguments => arguments

def mergeValues (arguments : List Value) : Except EvalFault Value :=
  if arguments.isEmpty then .error (.arity 1 0)
  else
    match putMaps [] (mergeOperands arguments) with
    | .error fault => .error fault
    | .ok fields =>
      match Value.ofFields fields with
      | .ok map => .ok map
      | .error key => .error (.duplicateKey key)

/-- What a fold passes to its function with each item: its position in a list, its key in a map. -/
def foldSteps? : Value → Option (List (Value × Value))
  | .list items => some (items.zipIdx.map fun (item, i) => (.int (Int64.ofNat i), item))
  | .map fields => some (fields.map fun f => (.string f.key, f.value))
  | _ => none

end ConfigExpr
