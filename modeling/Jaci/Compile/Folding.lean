import Jaci.Lib.Double
import Jaci.Lib.Wire
import Mathlib.Data.List.AList

/-!
# Constant folding

`ConstantVisitor` walks over a tree and records the constants it finds for expressions and locals.
The two maps live on from one fold to the next; a log keeps what a fold has changed in them, so that
`undoChanges` can take it back.  What an operator or a builtin gives is left open: the walk is the
same whatever the functions compute.

* `analyze`, `visitStat` : the walk;
* `recordConstant`, `undoChanges` : the changes of the maps, and how they are undone.
-/

namespace Jaci

namespace Compile

open Wire

/-! ### Constants -/

inductive Constant where
  /-- `Type_Unknown`. -/
  | unknown
  /-- `Type_Nil`. -/
  | nil
  /-- `Type_Boolean`. -/
  | boolean (value : Bool)
  /-- `Type_Number`. -/
  | number (value : Double)
  /-- `Type_Integer`. -/
  | integer (value : BitVec 64)
  /-- `Type_Vectorf`. -/
  | vectorf (x y z w : Double)
  /-- `Type_Vectord`. -/
  | vectord (x y z w : Double)
  /-- `Type_String`. -/
  | string (value : Bytes)
  /-- `Type_Table`, with the index of its properties. -/
  | table (value : ℕ)
deriving DecidableEq

def Constant.isTruthful : Constant → Bool
  | .nil => false
  | .boolean false => false
  | _ => true

/-! ### The tree -/

/-- An `AstExpr*`. -/
abbrev ExprId := ℕ

/-- An `AstLocal*`. -/
abbrev LocalId := ℕ

/-- `AstExprUnary::Op`. -/
inductive UnaryOp where
  | not | minus | len | bitNot | await
deriving DecidableEq

/-- `AstExprBinary::Op`. -/
inductive BinaryOp where
  | add | sub | mul | div | floorDiv | mod | pow | concat | compareNe | compareEq | compareLt
  | compareLe | compareGt | compareGe | bitAnd | bitOr | bitXor | shiftLeft | shiftRight | and | or
deriving DecidableEq

mutual

/-- `AstExpr`, with the address of the node. -/
inductive Expr where
  | group (id : ExprId) (expr : Expr)
  | constantNil (id : ExprId)
  | constantBool (id : ExprId) (value : Bool)
  | constantNumber (id : ExprId) (value : Double)
  | constantInteger (id : ExprId) (value : BitVec 64)
  | constantString (id : ExprId) (value : Bytes)
  | var (id : ExprId) (var : LocalId)
  | global (id : ExprId) (name : Bytes)
  | varargs (id : ExprId)
  | call (id : ExprId) (func : Expr) (args : List Expr)
  | indexName (id : ExprId) (expr : Expr) (index : Bytes)
  | indexExpr (id : ExprId) (expr index : Expr)
  | function (id : ExprId) (body : Stat)
  | table (id : ExprId) (items : List Item)
  | unary (id : ExprId) (op : UnaryOp) (expr : Expr)
  | binary (id : ExprId) (op : BinaryOp) (left right : Expr)
  | typeAssertion (id : ExprId) (expr : Expr)
  | ifElse (id : ExprId) (condition trueExpr falseExpr : Expr)
  | interpString (id : ExprId) (strings : List Bytes) (expressions : List Expr)
  | instantiate (id : ExprId) (expr : Expr)
  | error (id : ExprId)

inductive Item where
  | value (value : Expr)
  | keyed (key value : Expr)

/-- `AstStat`.  Of a statement other than `AstStatLocal` the visitor sees only the children. -/
inductive Stat where
  | locals (vars : List LocalId) (values : List Expr)
  | other (children : List Child)

/-- A child of a statement. -/
inductive Child where
  | expr (expr : Expr)
  | stat (stat : Stat)

end

/-- The address of the node. -/
def Expr.id : Expr → ExprId
  | .group id _ | .constantNil id | .constantBool id _ | .constantNumber id _
  | .constantInteger id _ | .constantString id _ | .var id _ | .global id _ | .varargs id
  | .call id _ _ | .indexName id _ _ | .indexExpr id _ _ | .function id _ | .table id _
  | .unary id _ _ | .binary id _ _ _ | .typeAssertion id _ | .ifElse id _ _ _
  | .interpString id _ _ | .instantiate id _ | .error id => id

/-! ### The state -/

/-- `DenseHashMap2` to constants. -/
abbrev Map (κ : Type) := AList fun _ : κ => Constant

/-- `ExprConstantChange`, `LocalConstantChange`. -/
structure Change where
  key : ℕ
  oldValue : Constant
  wasAbsent : Bool
deriving DecidableEq

structure Variable where
  written : Bool
  constant : Bool

/-- What a fold reads besides the tree. -/
structure Options where
  foldUnary : UnaryOp → Constant → Constant
  foldBinary : BinaryOp → Constant → Constant → Constant
  foldBuiltin : ℤ → List Constant → Constant
  /-- `foldBuiltinMath`, then the callback for library members. -/
  foldLibrary : Bytes → Bytes → Constant
  foldLibraryK : Bool
  /-- The builtin of a call, `LBF_NONE` apart. -/
  builtins : ExprId → Option ℤ
  /-- The kind of the local is `ConstantTable`. -/
  constantTable : LocalId → Bool

/-- The maps of `ConstantVisitor`, with the logs. -/
structure Visitor where
  constants : Map ExprId
  locals : Map LocalId
  tableLocals : Map LocalId
  constantTables : List (Map Bytes)
  /-- `variables`. -/
  variableOf : LocalId → Variable
  wasEmpty : Bool
  /-- The log of `constants`. -/
  exprChangeLog : Option (List Change)
  /-- The log of `locals`. -/
  localChangeLog : Option (List Change)

abbrev Visit := StateM Visitor

/-! ### Records -/

/-- `logChange`, with the value that is in the map. -/
def logChange (log : Option (List Change)) (key : ℕ) (old : Option Constant) :
    Option (List Change) :=
  log.map (· ++ [⟨key, old.getD .unknown, old.isNone⟩])

/-- `recordConstant`, on one of the maps and its log. -/
def recordConstant (wasEmpty : Bool) (map : Map ℕ) (log : Option (List Change)) (key : ℕ)
    (value : Constant) : Map ℕ × Option (List Change) :=
  match value with
  | .table _ => (map, log)
  | .unknown =>
    if wasEmpty then (map, log)
    else match map.lookup key with
      | some old => (map.insert key .unknown, logChange log key (some old))
      | none => (map, log)
  | value => (map.insert key value, logChange log key (map.lookup key))

/-- `recordConstant` of an expression. -/
def recordExpr (key : ExprId) (value : Constant) : Visit Unit := modify fun v =>
  let (constants, log) := recordConstant v.wasEmpty v.constants v.exprChangeLog key value
  { v with constants, exprChangeLog := log }

/-- `recordConstant` of a local. -/
def recordLocal (key : LocalId) (value : Constant) : Visit Unit := modify fun v =>
  let (locals, log) := recordConstant v.wasEmpty v.locals v.localChangeLog key value
  { v with locals, localChangeLog := log }

/-- `v->constant`. -/
def setConstant (var : LocalId) (constant : Bool) : Visit Unit := modify fun v =>
  { v with variableOf := Function.update v.variableOf var { v.variableOf var with constant } }

def recordValue (var : LocalId) (value : Constant) : Visit Unit := do
  let v ← get
  if ¬ (v.variableOf var).written then
    match value with
    | .table _ => do
      setConstant var false
      modify fun v => { v with tableLocals := v.tableLocals.insert var value }
    | _ => do
      setConstant var (value ≠ .unknown)
      recordLocal var value

/-! ### Folds -/

section Fold

variable (options : Options)

def kConstantFoldStringLimit : ℕ := 4096

/-- The strings with the constants of the expressions between them. -/
def interpolate : List Bytes → List Bytes → Bytes
  | s :: strings, c :: constants => s ++ c ++ interpolate strings constants
  | strings, _ => strings.flatten

/-- `foldInterpString`; the constants are the strings found for the expressions. -/
def foldInterpString (strings constants : List Bytes) : Constant :=
  let tmp := interpolate strings constants
  if tmp.length > kConstantFoldStringLimit then .unknown else .string tmp

/-- The bytes of a string constant. -/
def Constant.bytes : Constant → Bytes
  | .string s => s
  | _ => []

/-- The component of a vector with a name. -/
def component (x y z : Double) (index : Bytes) : Constant :=
  if index = [120] ∨ index = [88] then .number x
  else if index = [121] ∨ index = [89] then .number y
  else if index = [122] ∨ index = [90] then .number z
  else .unknown

/-- The property of a table, if its index is one. -/
def property (tables : List (Map Bytes)) (table : ℕ) (index : Bytes) : Constant :=
  ((tables[table]?.bind fun props => props.lookup index).getD .unknown)

/-- The constant of `value.index`, where `value` is the constant of `expr`. -/
def foldIndexName (tables : List (Map Bytes)) (expr : Expr) (value : Constant) (index : Bytes) :
    Constant :=
  match value with
  | .table i => property tables i index
  | .vectorf x y z _ => component x y z index
  | .vectord x y z _ => component x y z index
  | _ =>
    match expr with
    | .global _ name => if options.foldLibraryK then options.foldLibrary name index else .unknown
    | _ => .unknown

/-- A property of a table constructor. -/
def addProp (props : Map Bytes) (key value : Constant) : Map Bytes :=
  match key, value with
  | .string _, .unknown => props
  | .string _, .table _ => props
  | .string s, value => if s ≠ [] then props.insert s value else props
  | _, _ => props

/-- The expression may have any number of values. -/
def multRet : Expr → Bool
  | .call _ _ _ => true
  | .varargs _ => true
  | .unary _ .await _ => true
  | _ => false

mutual

def analyze : Expr → Visit Constant
  | .group id expr => do
    let result ← analyze expr
    recordExpr id result
    return result
  | .constantNil id => do
    recordExpr id .nil
    return .nil
  | .constantBool id value => do
    recordExpr id (.boolean value)
    return .boolean value
  | .constantNumber id value => do
    recordExpr id (.number value)
    return .number value
  | .constantInteger id value => do
    recordExpr id (.integer value)
    return .integer value
  | .constantString id value => do
    recordExpr id (.string value)
    return .string value
  | .var id var => do
    let v ← get
    let result := ((v.locals.lookup var).orElse fun _ => v.tableLocals.lookup var).getD .unknown
    recordExpr id result
    return result
  | .global id _ | .varargs id | .error id => do
    recordExpr id .unknown
    return .unknown
  | .call id func args => do
    let _ ← analyze func
    let constants ← analyzeList args
    let result := match options.builtins id with
      | some bfid =>
        if constants.all fun | .unknown => false | .table _ => false | _ => true then
          options.foldBuiltin bfid constants
        else .unknown
      | none => .unknown
    recordExpr id result
    return result
  | .indexName id expr index => do
    let value ← analyze expr
    let v ← get
    let result := foldIndexName options v.constantTables expr value index
    recordExpr id result
    return result
  | .indexExpr id expr index => do
    let indexVal ← analyze index
    let tableVal ← analyze expr
    let v ← get
    let result := match tableVal, indexVal with
      | .table i, .string s => if s ≠ [] then property v.constantTables i s else .unknown
      | _, _ => .unknown
    recordExpr id result
    return result
  | .function id body => do
    visitStat body
    recordExpr id .unknown
    return .unknown
  | .table id items => do
    let props ← analyzeItems items ∅
    let v ← get
    if props.entries.length = items.length then do
      modify fun v => { v with constantTables := v.constantTables ++ [props] }
      let result := .table v.constantTables.length
      recordExpr id result
      return result
    else do
      recordExpr id .unknown
      return .unknown
  | .unary id op expr => do
    let arg ← analyze expr
    let result := if arg ≠ .unknown then options.foldUnary op arg else .unknown
    recordExpr id result
    return result
  | .binary id op left right => do
    let la ← analyze left
    let ra ← analyze right
    let result := if la ≠ .unknown then options.foldBinary op la ra else .unknown
    recordExpr id result
    return result
  | .typeAssertion id expr => do
    let result ← analyze expr
    recordExpr id result
    return result
  | .ifElse id condition trueExpr falseExpr => do
    let cond ← analyze condition
    let trueVal ← analyze trueExpr
    let falseVal ← analyze falseExpr
    let result := if cond ≠ .unknown then (if cond.isTruthful then trueVal else falseVal)
      else .unknown
    recordExpr id result
    return result
  | .interpString id strings expressions => do
    let constants ← analyzeList expressions
    let v ← get
    let result := if constants.all fun | .string _ => true | _ => false then
        foldInterpString strings
          (expressions.map fun e => ((v.constants.lookup e.id).getD .unknown).bytes)
      else .unknown
    recordExpr id result
    return result
  | .instantiate id expr => do
    let result ← analyze expr
    recordExpr id result
    return result

/-- The arguments of a call, or the expressions in a string. -/
def analyzeList : List Expr → Visit (List Constant)
  | [] => return []
  | expr :: rest => do
    let value ← analyze expr
    let values ← analyzeList rest
    return value :: values

/-- The items of a table constructor, with the properties so far. -/
def analyzeItems : List Item → Map Bytes → Visit (Map Bytes)
  | [], props => return props
  | .value value :: rest, props => do
    let _ ← analyze value
    analyzeItems rest props
  | .keyed key value :: rest, props => do
    let valueVal ← analyze value
    let keyVal ← analyze key
    analyzeItems rest (addProp props keyVal valueVal)

/-- The values of `AstStatLocal`, each with its variable as long as there are some. -/
def visitValues : List Expr → List LocalId → Visit Unit
  | [], _ => return ()
  | .unary _ .await expr :: values, _ :: vars => do
    let _ ← analyze expr
    visitValues values vars
  | value :: values, var :: vars => do
    let arg ← analyze value
    match arg with
    | .table _ => recordValue var (if options.constantTable var then arg else .unknown)
    | _ => recordValue var arg
    visitValues values vars
  | value :: values, [] => do
    let _ ← analyze value
    visitValues values []

/-- The visit of a statement. -/
def visitStat : Stat → Visit Unit
  | .locals vars values => do
    visitValues values vars
    if vars.length > values.length ∧ ¬ values.getLast?.any multRet then
      (vars.drop values.length).forM fun var => recordValue var .nil
  | .other children => visitChildren children

/-- The visits of the children of a statement. -/
def visitChildren : List Child → Visit Unit
  | [] => return ()
  | .expr expr :: rest => do
    let _ ← analyze expr
    visitChildren rest
  | .stat stat :: rest => do
    visitStat stat
    visitChildren rest

end

def foldConstants (constants : Map ExprId) (variableOf : LocalId → Variable) (locals : Map LocalId)
    (root : Child) (exprChangeLog localChangeLog : Option (List Change)) : Visitor :=
  (visitChildren options [root]
    { constants, locals, tableLocals := ∅, constantTables := [], variableOf,
      wasEmpty := constants.entries.isEmpty && locals.entries.isEmpty,
      exprChangeLog, localChangeLog }).2

end Fold

/-! ### Undo -/

/-- One change is taken back. -/
def undoChange (map : Map ℕ) (change : Change) : Map ℕ :=
  if change.wasAbsent then
    match map.lookup change.key with
    | some _ => map.insert change.key .unknown
    | none => map
  else map.insert change.key change.oldValue

/-- `undoChanges`: the changes are taken back from the last one to the first one. -/
def undoChanges (map : Map ℕ) (changes : List Change) : Map ℕ :=
  changes.reverse.foldl undoChange map

end Compile

end Jaci
