import Jaci.Ast.Lexer

/-!
# Syntax trees

A visitor is called for a node, and the node goes on to its parts if the visitor says so.  Some parts
are never gone on to.  What no visitor here looks at in a node is left out.

* `AstLocal`, `Kind`, `Node` : nodes, with the parts that are visited and those that are not;
* `AstExprGroup`, … : the nodes of the classes, with their parts as `visit` goes on to them;
* `Node.visited` : the calls of a visitor;
* `Node.nodes` : all nodes;
* `Node.outside`, `Node.inside` : the nodes outside of types and those inside of them;
* `nodes_perm` : every node is one or the other.
-/

namespace Jaci

namespace Ast

structure AstLocal where
  id : ℕ
  location : Location
deriving DecidableEq

/-- The class of a node. -/
inductive Kind where
  /-- `AstExprConstantNumber`. -/
  | constantNumber
  /-- `AstExprConstantString`. -/
  | constantString
  /-- `AstExprLocal`. -/
  | exprLocal (local_ : AstLocal)
  /-- `AstExprIndexName`. -/
  | indexName (indexLocation : Location)
  /-- `AstExprFunction`. -/
  | function (args : List AstLocal)
  /-- `AstStatLocal`. -/
  | statLocal (vars : List AstLocal)
  /-- `AstStatFor`. -/
  | statFor (var : AstLocal)
  /-- `AstStatForIn`. -/
  | statForIn (vars : List AstLocal)
  /-- `AstStatFunction`. -/
  | statFunction (nameLocation : Location)
  /-- `AstStatLocalFunction`. -/
  | localFunction (name : AstLocal)
  /-- `AstStatTypeAlias`. -/
  | typeAlias
  /-- `AstStatClass`. -/
  | statClass (name : AstLocal)
  /-- `AstTypeReference`, with the local that stands before the dot. -/
  | typeReference (prefixLocal : Option (AstLocal × Location))
  /-- Another `AstType` or `AstTypePack`. -/
  | type
  | other
deriving DecidableEq

/-- Is it an `AstType` or an `AstTypePack`? -/
def Kind.isType : Kind → Bool
  | .typeReference _ => true
  | .type => true
  | _ => false

/-- A node: the parts that `visit` goes on to, and other parts. -/
inductive Node where
  | mk (kind : Kind) (location : Location) (parts others : List Node)

namespace Node

def kind : Node → Kind
  | mk kind _ _ _ => kind

def location : Node → Location
  | mk _ location _ _ => location

end Node

/-- A variable with its annotation. -/
abbrev Var := AstLocal × Option Node

/-! ### Expressions -/

def AstExprGroup (location : Location) (expr : Node) : Node := .mk .other location [expr] []

/-- `AstExprConstantNil`, `AstExprConstantBool`, `AstExprConstantInteger`, `AstExprGlobal` and
`AstExprVarargs`. -/
def AstExprLeaf (location : Location) : Node := .mk .other location [] []

def AstExprConstantNumber (location : Location) : Node := .mk .constantNumber location [] []

def AstExprConstantString (location : Location) : Node := .mk .constantString location [] []

def AstExprLocal (location : Location) (local_ : AstLocal) : Node :=
  .mk (.exprLocal local_) location [] []

/-- `AstExprCall`: the type arguments are not visited. -/
def AstExprCall (location : Location) (func : Node) (typeArguments args : List Node) : Node :=
  .mk .other location (func :: args) typeArguments

def AstExprIndexName (location : Location) (expr : Node) (indexLocation : Location) : Node :=
  .mk (.indexName indexLocation) location [expr] []

def AstExprIndexExpr (location : Location) (expr index : Node) : Node :=
  .mk .other location [expr, index] []

/-- `AstExprFunction`: its attributes and generics are not visited. -/
def AstExprFunction (location : Location) (attributes generics : List Node) (args : List Var)
    ( varargAnnotation returnAnnotation : Option Node) (body : Node) : Node :=
  .mk (.function (args.map Prod.fst)) location
    (args.filterMap Prod.snd ++ varargAnnotation.toList ++ returnAnnotation.toList ++ [body])
    (attributes ++ generics)

/-- `AstExprTable`: a key may be missing. -/
def AstExprTable (location : Location) (items : List (Option Node × Node)) : Node :=
  .mk .other location (items.flatMap fun i => i.1.toList ++ [i.2]) []

def AstExprUnary (location : Location) (expr : Node) : Node := .mk .other location [expr] []

def AstExprBinary (location : Location) (left right : Node) : Node :=
  .mk .other location [left, right] []

def AstExprTypeAssertion (location : Location) (expr annotation : Node) : Node :=
  .mk .other location [expr, annotation] []

def AstExprIfElse (location : Location) (condition trueExpr falseExpr : Node) : Node :=
  .mk .other location [condition, trueExpr, falseExpr] []

/-- `AstExprInterpString` and `AstExprError`. -/
def AstExprInterpString (location : Location) (expressions : List Node) : Node :=
  .mk .other location expressions []

def AstExprInstantiate (location : Location) (expr : Node) (typeArguments : List Node) : Node :=
  .mk .other location (expr :: typeArguments) []

/-! ### Statements -/

def AstStatBlock (location : Location) (body : List Node) : Node := .mk .other location body []

def AstStatIf (location : Location) (condition thenbody : Node) (elsebody : Option Node) : Node :=
  .mk .other location (condition :: thenbody :: elsebody.toList) []

def AstStatWhile (location : Location) (condition body : Node) : Node :=
  .mk .other location [condition, body] []

def AstStatRepeat (location : Location) (body condition : Node) : Node :=
  .mk .other location [body, condition] []

/-- `AstStatBreak` and `AstStatContinue`. -/
def AstStatBreak (location : Location) : Node := .mk .other location [] []

def AstStatReturn (location : Location) (list : List Node) : Node := .mk .other location list []

def AstStatExpr (location : Location) (expr : Node) : Node := .mk .other location [expr] []

def AstStatLocal (location : Location) (vars : List Var) (values : List Node) : Node :=
  .mk (.statLocal (vars.map Prod.fst)) location (vars.filterMap Prod.snd ++ values) []

def AstStatFor (location : Location) (var : Var) (from_ to_ : Node) (step : Option Node)
    (body : Node) : Node :=
  .mk (.statFor var.1) location (var.2.toList ++ [from_, to_] ++ step.toList ++ [body]) []

def AstStatForIn (location : Location) (vars : List Var) (values : List Node) (body : Node) : Node :=
  .mk (.statForIn (vars.map Prod.fst)) location (vars.filterMap Prod.snd ++ values ++ [body]) []

def AstStatAssign (location : Location) (vars values : List Node) : Node :=
  .mk .other location (vars ++ values) []

def AstStatCompoundAssign (location : Location) (var value : Node) : Node :=
  .mk .other location [var, value] []

def AstStatFunction (location : Location) (name func : Node) : Node :=
  .mk (.statFunction name.location) location [name, func] []

def AstStatLocalFunction (location : Location) (name : AstLocal) (func : Node) : Node :=
  .mk (.localFunction name) location [func] []

/-- `AstStatTypeAlias`: of a generic its default value, if it has one, is a part. -/
def AstStatTypeAlias (location : Location) (generics genericPacks : List Node) (type : Node) : Node :=
  .mk .typeAlias location (generics ++ genericPacks ++ [type]) []

/-- `AstGenericType` and `AstGenericTypePack`. -/
def AstGenericType (location : Location) (defaultValue : Option Node) : Node :=
  .mk .other location defaultValue.toList []

def AstStatTypeFunction (location : Location) (body : Node) : Node := .mk .other location [body] []

def AstStatDeclareGlobal (location : Location) (type : Node) : Node := .mk .other location [type] []

/-- `AstStatDeclareFunction`: its attributes and generics are not visited. -/
def AstStatDeclareFunction (location : Location) (attributes generics params : List Node)
    (retTypes : Node) : Node :=
  .mk .other location (params ++ [retTypes]) (attributes ++ generics)

/-- `AstStatClass`: of its members the types and the functions are parts. -/
def AstStatClass (location : Location) (name : AstLocal) (super : Option Node)
    (members : List Node) : Node :=
  .mk (.statClass name) location (super.toList ++ members) []

/-- `AstStatDeclareExternType`: its indexer is not visited. -/
def AstStatDeclareExternType (location : Location) (props : List Node) (indexer : List Node) : Node :=
  .mk .other location props indexer

def AstStatError (location : Location) (expressions statements : List Node) : Node :=
  .mk .other location (expressions ++ statements) []

/-- `AstAttr`: its arguments are not visited. -/
def AstAttr (location : Location) (args : List Node) : Node := .mk .other location [] args

/-! ### Types -/

def AstTypeReference (location : Location) (prefixLocal : Option (AstLocal × Location))
    (parameters : List Node) : Node :=
  .mk (.typeReference prefixLocal) location parameters []

def AstTypeTable (location : Location) (props : List Node) (indexer : Option (Node × Node)) : Node :=
  .mk .type location (props ++ indexer.toList.flatMap fun i => [i.1, i.2]) []

/-- `AstTypeFunction`: its attributes and generics are not visited. -/
def AstTypeFunction (location : Location) (attributes generics argTypes : List Node)
    (returnTypes : Node) : Node :=
  .mk .type location (argTypes ++ [returnTypes]) (attributes ++ generics)

def AstTypeTypeof (location : Location) (expr : Node) : Node := .mk .type location [expr] []

/-- `AstTypeOptional`, `AstTypeSingletonBool`, `AstTypeSingletonString` and `AstTypePackGeneric`. -/
def AstTypeLeaf (location : Location) : Node := .mk .type location [] []

/-- `AstTypeUnion`, `AstTypeIntersection`, `AstTypeGroup`, `AstTypeError`, `AstTypePackExplicit` and
`AstTypePackVariadic`. -/
def AstTypeUnion (location : Location) (types : List Node) : Node := .mk .type location types []

/-! ### Visitors -/

namespace Node

mutual

/-- The nodes that a visitor is called for, in order: it goes on where `enters` says so. -/
def visited (enters : Kind → Bool) : Node → List Node
  | mk kind location parts others =>
    mk kind location parts others :: if enters kind then visitedAll enters parts else []

/-- The nodes that a visitor is called for in successive nodes. -/
def visitedAll (enters : Kind → Bool) : List Node → List Node
  | [] => []
  | n :: ns => visited enters n ++ visitedAll enters ns

end

mutual

def nodes : Node → List Node
  | mk kind location parts others =>
    mk kind location parts others :: (nodesAll parts ++ nodesAll others)

/-- All nodes of successive nodes. -/
def nodesAll : List Node → List Node
  | [] => []
  | n :: ns => nodes n ++ nodesAll ns

end

mutual

/-- The nodes outside of types and of other parts that are never visited. -/
def outside : Node → List Node
  | mk kind location parts others =>
    if kind.isType then [] else mk kind location parts others :: outsideAll parts

/-- The nodes of successive nodes outside of types and of other parts that are never visited. -/
def outsideAll : List Node → List Node
  | [] => []
  | n :: ns => outside n ++ outsideAll ns

end

mutual

/-- The nodes inside of types or of other parts that are never visited. -/
def inside : Node → List Node
  | mk kind location parts others =>
    if kind.isType then nodes (mk kind location parts others)
    else insideAll parts ++ nodesAll others

/-- The nodes of successive nodes inside of types or of other parts that are never visited. -/
def insideAll : List Node → List Node
  | [] => []
  | n :: ns => inside n ++ insideAll ns

end

mutual

/-- **Every node is outside or inside.** -/
theorem nodes_perm : ∀ n : Node, n.nodes.Perm (n.outside ++ n.inside)
  | mk kind location parts others => by
    rw [outside, inside]
    split_ifs with htype
    · exact .refl _
    · rw [nodes, List.cons_append, ← List.append_assoc]
      exact ((nodesAll_perm parts).append_right _).cons _

theorem nodesAll_perm : ∀ ns : List Node, (nodesAll ns).Perm (outsideAll ns ++ insideAll ns)
  | [] => .refl _
  | n :: ns => by
    rw [nodesAll, outsideAll, insideAll]
    have hshuffle := (nodes_perm n).append (nodesAll_perm ns)
    refine hshuffle.trans ?_
    rw [List.append_assoc, List.append_assoc]
    refine List.Perm.append_left _ ?_
    rw [← List.append_assoc, ← List.append_assoc]
    exact List.perm_append_comm.append_right _

end

end Node

end Ast

end Jaci
