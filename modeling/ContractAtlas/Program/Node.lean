import ContractAtlas.Call.Callee
import ContractAtlas.Call.Kind
import ContractAtlas.Source.Span

/-! Statement and expression trees of function bodies, modifier bodies and initialisers. -/
namespace ContractAtlas

inductive LiteralKind
  | number
  | string
  | bool
  | hex
deriving DecidableEq

/-- What a call node says beyond its children. The kind is filled in by the analysis, once. -/
structure CallSite where
  callee : Callee
  /-- The option block between callee and arguments, braces included. -/
  options : Option String := none
  kind : Option CallKind := none
deriving DecidableEq

inductive NodeKind
  | block
  | uncheckedBlock
  | expressionStatement
  | declaration (names : List String)
  | ifStatement
  | forLoop
  | whileLoop
  | doWhileLoop
  | returnStatement
  | emit (event : String)
  | revertStatement
  | tryStatement
  | catchClause
  | assembly
  | breakStatement
  | continueStatement
  /-- The first child is the callee, the others are the arguments. -/
  | call (site : CallSite)
  | memberAccess (member : String)
  | indexAccess
  | identifier (name : String)
  | literal (kind : LiteralKind)
  | assignment (operator : String)
  | binary (operator : String)
  | unary (operator : String)
  | update (operator : String)
  | creation (type : String)
  | tuple
  | conditional
  | parenthesized
  | elementaryType (name : String)
  /-- A form without meaning for the analyses, under the grammar's name for it. -/
  | other (name : String)
deriving DecidableEq

namespace NodeKind

def name : NodeKind → String
  | block => "block"
  | uncheckedBlock => "unchecked_block"
  | expressionStatement => "expression_statement"
  | declaration _ => "variable_declaration"
  | ifStatement => "if_statement"
  | forLoop => "for_statement"
  | whileLoop => "while_statement"
  | doWhileLoop => "do_while_statement"
  | returnStatement => "return_statement"
  | emit _ => "emit_statement"
  | revertStatement => "revert_statement"
  | tryStatement => "try_statement"
  | catchClause => "catch_clause"
  | assembly => "assembly_statement"
  | breakStatement => "break_statement"
  | continueStatement => "continue_statement"
  | call _ => "call_expression"
  | memberAccess _ => "member_access"
  | indexAccess => "index_access"
  | identifier _ => "identifier"
  | literal _ => "literal"
  | assignment _ => "assignment"
  | binary _ => "binary_operation"
  | unary _ => "unary_operation"
  | update _ => "update_operation"
  | creation _ => "new_expression"
  | tuple => "tuple_expression"
  | conditional => "conditional_expression"
  | parenthesized => "parenthesized_expression"
  | elementaryType _ => "elementary_type"
  | other name => name

def isStatement : NodeKind → Bool
  | block | uncheckedBlock | expressionStatement | declaration _ | ifStatement | forLoop | whileLoop
  | doWhileLoop | returnStatement | emit _ | revertStatement | tryStatement | catchClause | assembly
  | breakStatement | continueStatement => true
  | _ => false

/-- A statement that only groups other statements and conditions. -/
def isCompound : NodeKind → Bool
  | block | uncheckedBlock | ifStatement | forLoop | whileLoop | doWhileLoop | tryStatement
  | catchClause => true
  | _ => false

theorem isStatement_of_isCompound {k : NodeKind} (h : k.isCompound = true) :
    k.isStatement = true := by
  cases k <;> first | rfl | cases h

end NodeKind

/-- A statement or expression with the exact source it stands for. -/
structure Node where
  kind : NodeKind
  span : Span := {}
  excerpt : Excerpt := {}
  children : List Node := []

namespace Node

instance : Inhabited Node := ⟨{ kind := .block }⟩

def text (n : Node) : Text := n.excerpt.text

def isStatement (n : Node) : Bool := n.kind.isStatement

def isCompound (n : Node) : Bool := n.kind.isCompound

def callSite? (n : Node) : Option CallSite :=
  match n.kind with
  | .call site => some site
  | _ => none

def isCall (n : Node) : Bool := n.callSite?.isSome

/-- The kind recorded on a call. -/
def callKind? (n : Node) : Option CallKind := n.callSite?.bind CallSite.kind

def callee? (n : Node) : Option Node := if n.isCall then n.children.head? else none

def arguments (n : Node) : List Node := if n.isCall then n.children.tail else []

def identifier? (n : Node) : Option String :=
  match n.kind with
  | .identifier name => some name
  | _ => none

mutual

/-- Number of nodes of the tree. -/
def size : Node → Nat
  | ⟨_, _, _, children⟩ => sizeAll children + 1

/-- Number of nodes of a list of trees. -/
def sizeAll : List Node → Nat
  | [] => 0
  | n :: ns => n.size + sizeAll ns

end

/-- Takes nodes off a stack, each replaced by its children in order, for at most `steps` nodes. -/
def drain : (steps : Nat) → (stack : List Node) → List Node
  | 0, _ => []
  | _, [] => []
  | steps + 1, n :: stack => n :: drain steps (n.children ++ stack)

/-- The nodes of the tree, each before its children. -/
def descendants (n : Node) : List Node := drain n.size [n]

/-- The calls of the tree, each before the calls inside it. -/
def calls (n : Node) : List Node := n.descendants.filter isCall

/-- A node met on a walk: its ancestors from the root down, and its place among its siblings. -/
structure Visit where
  node : Node
  ancestors : List Node
  index : Nat

mutual

/-- The nodes of the tree, each before its children, with their ancestors. -/
def walkFrom (ancestors : List Node) (index : Nat) : Node → List Visit
  | ⟨kind, span, excerpt, children⟩ =>
    let n : Node := ⟨kind, span, excerpt, children⟩
    ⟨n, ancestors, index⟩ :: walkAll (ancestors ++ [n]) 0 children

def walkAll (ancestors : List Node) (index : Nat) : List Node → List Visit
  | [] => []
  | n :: ns => walkFrom ancestors index n ++ walkAll ancestors (index + 1) ns

end

def walk (n : Node) : List Visit := walkFrom [] 0 n

namespace Visit

/-- The emit statement whose event this node invokes: the node is the statement's first child. -/
def emitStatement? (v : Visit) : Option Node :=
  match v.ancestors.getLast? with
  | some parent =>
    match parent.kind with
    | .emit _ => if v.index = 0 then some parent else none
    | _ => none
  | none => none

end Visit

/-- The calls of a body apart from the invocations of emitted events. -/
def directCalls (body : Node) : List Node :=
  (body.walk.filter fun v => v.node.isCall && v.emitStatement?.isNone).map Visit.node

/-- The names that a body calls: bare names and member names. -/
def calledNames (body : Node) : List String :=
  body.directCalls.filterMap fun n => n.callSite?.bind fun site => site.callee.name?

end Node

end ContractAtlas
