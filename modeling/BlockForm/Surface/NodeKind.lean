import BlockForm.Surface.Module

/-!
# BlockForm.Surface.NodeKind — the category of a node

For consumers that dispatch on what a node is and need not look into it.
-/

namespace BlockForm

/-- The category of a node of a surface program. -/
inductive NodeKind where
  | functionImplementation | functionDeclaration | typeDeclaration
  | varDecl | assign | give | branch | expressionStatement
  | constant | stringLiteral | identifier | binaryOperation | call | choice
  deriving DecidableEq

/-- The name of a category. -/
def NodeKind.label : NodeKind → String
  | functionImplementation => "FunctionImplementation"
  | functionDeclaration => "FunctionDeclaration"
  | typeDeclaration => "TypeDeclaration"
  | varDecl => "VarDecl"
  | assign => "Assign"
  | give => "Return"
  | branch => "If"
  | expressionStatement => "ExpressionStatement"
  | constant => "Constant"
  | stringLiteral => "StringLiteral"
  | identifier => "Identifier"
  | binaryOperation => "BinaryOperation"
  | call => "Call"
  | choice => "Match"

/-- The category of an expression. -/
def Expr.kind : Expr → NodeKind
  | constant _ _ _ => .constant
  | text _ _ _ => .stringLiteral
  | ident _ _ _ => .identifier
  | binary _ _ _ _ _ => .binaryOperation
  | call _ _ _ _ _ _ => .call
  | choice _ _ _ _ => .choice

/-- The category of a statement. -/
def Statement.kind : Statement → NodeKind
  | declare _ _ _ _ => .varDecl
  | assign _ _ _ => .assign
  | give _ _ => .give
  | branch _ _ _ _ => .branch
  | effect _ => .expressionStatement

/-- The category of an item. -/
def Item.kind : Item → NodeKind
  | function _ => .functionImplementation
  | foreign _ => .functionDeclaration
  | type _ => .typeDeclaration

/-- The expression a statement stands on: the first value, the value, the condition or the effect. -/
def Statement.expr? : Statement → Option Expr
  | declare _ _ initial _ => initial
  | assign _ value _ => some value
  | give value _ => value
  | branch condition _ _ _ => some condition
  | effect value => some value

end BlockForm
