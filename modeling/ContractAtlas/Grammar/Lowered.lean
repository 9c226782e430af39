import ContractAtlas.Grammar.Tree
import ContractAtlas.Program.Node
import ContractAtlas.Source.Line
import ContractAtlas.Text.Blank
import ContractAtlas.Text.Search

/-! Syntax trees in which every node carries the statement or expression that it stands for. -/
namespace ContractAtlas

/-- The file that a syntax tree belongs to. -/
structure TreeSource where
  file : Nat
  path : String
  text : Text

namespace TreeSource

/-- The source of a tree; empty when its range is not valid. -/
def textOf (s : TreeSource) (t : ParseTree) : Text := (s.text.slice? t.start t.stop).getD []

def nameOf (s : TreeSource) (t : ParseTree) : String := String.ofList (s.textOf t)

def excerptOf (s : TreeSource) (t : ParseTree) : Excerpt := ⟨s.text, t.start, t.stop⟩

/-- Rows and byte columns of a tree's range, counted from one. -/
def spanOf (s : TreeSource) (t : ParseTree) : Span :=
  let (row, column) := s.text.rowColumn t.start
  let (endRow, endColumn) := s.text.rowColumn t.stop
  { file := s.file, path := s.path, line := row + 1, column := column + 1, endLine := endRow + 1,
    endColumn := endColumn + 1, startByte := t.start, endByte := t.stop }

end TreeSource

/-- A syntax tree with the node it stands for, and the same for its children. -/
structure Lowered where
  tree : ParseTree
  node : Node
  parts : List Lowered

namespace Lowered

instance : Inhabited Lowered := ⟨⟨default, default, []⟩⟩

/-- Named by the grammar and no comment. -/
def isContent (l : Lowered) : Bool := l.tree.isNamed && !l.tree.isExtra

def content (parts : List Lowered) : List Lowered := parts.filter isContent

/-- The child under a field name. -/
def fieldIn? (t : ParseTree) (parts : List Lowered) (name : String) : Option Lowered :=
  (t.fields.lookup name).bind fun i => parts[i]?

def field? (l : Lowered) (name : String) : Option Lowered := fieldIn? l.tree l.parts name

/-- The child under a field name, or else the first content child. -/
def fieldOrFirst? (t : ParseTree) (parts : List Lowered) (name : String) : Option Lowered :=
  (fieldIn? t parts name).orElse fun _ => (content parts).head?

mutual

/-- Goes through wrappers that hold nothing but one expression. -/
def unwrap : Lowered → Lowered
  | ⟨tree, node, parts⟩ =>
    if tree.kind = "expression" then
      match unwrapAll parts with
      | [inner] => inner
      | _ => ⟨tree, node, parts⟩
    else ⟨tree, node, parts⟩

/-- The same for the content of a list of children. -/
def unwrapAll : List Lowered → List Lowered
  | [] => []
  | p :: ps => if p.isContent then unwrap p :: unwrapAll ps else unwrapAll ps

end

variable (s : TreeSource)

/-- A node over the whole range of a tree. -/
def nodeOver (t : ParseTree) (kind : NodeKind) (children : List Node) : Node :=
  ⟨kind, s.spanOf t, s.excerptOf t, children⟩

def contentNodes (parts : List Lowered) : List Node := (content parts).map node

/-- A form without a meaning of its own: its content under the grammar's name. -/
def other (t : ParseTree) (parts : List Lowered) : Node :=
  nodeOver s t (.other t.kind) (contentNodes parts)

/-- The node of the only content child, or else the tree as it is. -/
def onlyContent (t : ParseTree) (parts : List Lowered) : Node :=
  match content parts with
  | [inner] => inner.node
  | _ => other s t parts

/-- An argument of a call, without its wrapper. -/
def argument (l : Lowered) : Node :=
  match content l.parts with
  | [inner] => inner.node
  | _ => l.node

def argumentsIn (parts : List Lowered) : List Node :=
  ((content parts).filter fun p => p.tree.kind = "call_argument").map argument

/-- The text of the operator: its field, or else the first token. -/
def operatorOf (t : ParseTree) (parts : List Lowered) : String :=
  match fieldIn? t parts "operator" with
  | some p => s.nameOf p.tree
  | none =>
    match parts.find? fun p => !p.tree.isNamed with
    | some p => s.nameOf p.tree
    | none => ""

/-- Names declared by one child of a declaration statement. -/
def declaredBy (l : Lowered) : Option (List String) :=
  let nameField := fun (p : Lowered) => (p.field? "name").map fun n => s.nameOf n.tree
  if l.tree.kind = "variable_declaration" then some (nameField l).toList
  else if l.tree.kind = "variable_declaration_tuple" then
    some ((content l.parts).flatMap fun p =>
      if p.tree.kind = "variable_declaration" then (nameField p).toList
      else if p.tree.kind = "identifier" then [s.nameOf p.tree]
      else [])
  else none

/-- A declaration statement: the names it declares, and the values it declares them with. -/
def declaration (t : ParseTree) (parts : List Lowered) : Node :=
  let names := (content parts).flatMap fun p => (declaredBy s p).getD []
  let values := (content parts).filter fun p => (declaredBy s p).isNone
  nodeOver s t (.declaration names) (values.map node)

/-- A loop whose condition is wrapped into a statement by the grammar loses that wrapper. -/
def forLoop (t : ParseTree) (parts : List Lowered) : Node :=
  let condition := t.fields.lookup "condition"
  let numbered := parts.mapIdx fun i p => (i, p)
  let children := (numbered.filter fun (_, p) => p.isContent).map fun (i, p) =>
    if condition = some i && p.tree.kind = "expression_statement" then argument p else p.node
  nodeOver s t .forLoop children

/-- An emit statement has one child, the invocation of its event. That runs from the event's name to
the last closing parenthesis of the statement. -/
def emit (t : ParseTree) (parts : List Lowered) : Node :=
  match fieldOrFirst? t parts "name" with
  | none => nodeOver s t (.emit "") []
  | some name =>
    let event := s.textOf name.tree
    let stop := match Text.cutLast? ')' (s.textOf t) with
      | some (before, _) => t.start + before.byteSize + 1
      | none => t.stop
    let invocation : Node :=
      { kind := .call { callee := Callee.ofText event }
        span := { s.spanOf name.tree with endByte := stop }
        excerpt := ⟨s.text, name.tree.start, stop⟩
        children := name.node :: argumentsIn parts }
    nodeOver s t (.emit (String.ofList event)) [invocation]

/-- A call. Call options stand in a wrapper around the callee and are split off. -/
def call (t : ParseTree) (parts : List Lowered) : Node :=
  match (fieldOrFirst? t parts "function").map unwrap with
  | none => other s t parts
  | some function =>
    let wrapped :=
      if function.tree.kind = "struct_expression" then
        (fieldOrFirst? function.tree function.parts "type").map unwrap
      else none
    let callee := wrapped.getD function
    let options := wrapped.map fun inner =>
      let source := s.textOf function.tree
      let suffix := source.slice? (inner.tree.stop - function.tree.start) source.byteSize
      String.ofList (suffix.getD []).trim
    nodeOver s t (.call { callee := Callee.ofText (s.textOf callee.tree), options := options })
      (callee.node :: argumentsIn parts)

/-- A conversion to a type is a call of the type. The callee ends at the first opening
parenthesis. -/
def conversion (t : ParseTree) (parts : List Lowered) : Node :=
  let source := s.textOf t
  let head := match Text.cut? ['('] source with
    | some (head, _) => head
    | none => []
  let stop := t.start + head.byteSize
  let name := String.ofList head.trim
  let made : Node :=
    { kind := if name = "payable" then .identifier name else .elementaryType name
      span := { s.spanOf t with endByte := stop }
      excerpt := ⟨s.text, t.start, stop⟩ }
  let callee := match content parts with
    | first :: _ => if first.tree.stop ≤ stop then first.node else made
    | [] => made
  let arguments := (content parts).filter fun p => stop < p.tree.start
  nodeOver s t (.call { callee := Callee.ofText head.trim }) (callee :: arguments.map node)

/-- Without any number of repetitions of `head` at the start. -/
def dropRepeated (head : Text) : (most : Nat) → Text → Text
  | 0, t => t
  | most + 1, t =>
    match Text.after? head t with
    | some rest => dropRepeated head most rest
    | none => t

def creation (t : ParseTree) (parts : List Lowered) : Node :=
  let type := match fieldIn? t parts "name" with
    | some p => s.textOf p.tree
    | none =>
      let source := s.textOf t
      (dropRepeated "new".toList source.length source).trim
  nodeOver s t (.creation (String.ofList type)) []

def memberAccess (t : ParseTree) (parts : List Lowered) : Node :=
  let member := ((fieldIn? t parts "property").map fun p => s.nameOf p.tree).getD ""
  nodeOver s t (.memberAccess member) ((fieldOrFirst? t parts "object").map node).toList

def block (t : ParseTree) (parts : List Lowered) : Node :=
  let isUnchecked := (parts.head?.map fun p => p.tree.kind) = some "unchecked"
  nodeOver s t (if isUnchecked then .uncheckedBlock else .block) (contentNodes parts)

/-- The node that a tree stands for, given its children. -/
def assemble (t : ParseTree) (parts : List Lowered) : Node :=
  let holding := fun kind => nodeOver s t kind (contentNodes parts)
  let leaf := fun kind => nodeOver s t kind []
  match t.kind with
  | "expression" | "statement" => onlyContent s t parts
  | "block_statement" | "function_body" | "unchecked_block" => block s t parts
  | "expression_statement" => holding .expressionStatement
  | "variable_declaration_statement" => declaration s t parts
  | "if_statement" => holding .ifStatement
  | "while_statement" => holding .whileLoop
  | "do_while_statement" => holding .doWhileLoop
  | "for_statement" => forLoop s t parts
  | "return_statement" => holding .returnStatement
  | "revert_statement" => holding .revertStatement
  | "emit_statement" => emit s t parts
  | "try_statement" => holding .tryStatement
  | "catch_clause" => holding .catchClause
  | "assembly_statement" => leaf .assembly
  | "break_statement" => leaf .breakStatement
  | "continue_statement" => leaf .continueStatement
  | "call_expression" => call s t parts
  | "type_cast_expression" | "payable_conversion_expression" => conversion s t parts
  | "member_expression" => memberAccess s t parts
  | "array_access" | "slice_access" => holding .indexAccess
  | "assignment_expression" => holding (.assignment "=")
  | "augmented_assignment_expression" => holding (.assignment (operatorOf s t parts))
  | "binary_expression" => holding (.binary (operatorOf s t parts))
  | "unary_expression" => holding (.unary (operatorOf s t parts))
  | "update_expression" => holding (.update (operatorOf s t parts))
  | "new_expression" => creation s t parts
  | "tuple_expression" | "inline_array_expression" => holding .tuple
  | "parenthesized_expression" => holding .parenthesized
  | "ternary_expression" => holding .conditional
  | "identifier" | "user_defined_type" => leaf (.identifier (s.nameOf t))
  | "number_literal" => leaf (.literal .number)
  | "string_literal" | "unicode_string_literal" => leaf (.literal .string)
  | "boolean_literal" => leaf (.literal .bool)
  | "hex_string_literal" => leaf (.literal .hex)
  | "primitive_type" | "elementary_type" => leaf (.elementaryType (s.nameOf t))
  | _ => other s t parts

mutual

/-- Lowers a tree from its leaves up. -/
def ofTree : ParseTree → Lowered
  | ⟨kind, start, stop, isNamed, isExtra, isError, isMissing, children, fields⟩ =>
    let t : ParseTree := ⟨kind, start, stop, isNamed, isExtra, isError, isMissing, children, fields⟩
    let parts := ofTrees children
    ⟨t, assemble s t parts, parts⟩

def ofTrees : List ParseTree → List Lowered
  | [] => []
  | t :: ts => ofTree t :: ofTrees ts

end

end Lowered

end ContractAtlas
