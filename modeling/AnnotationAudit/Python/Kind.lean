/-!
# Kinds and fields of syntax nodes

* `Kind`   the node kinds that some part of the library tells apart; all others are `Kind.other`;
* `Field`  the names under which a node's children can be asked for.
-/

namespace AnnotationAudit
namespace Python

/-- what a syntax node is -/
inductive Kind where
  | module
  | functionDefinition
  | classDefinition
  | decoratedDefinition
  | decorator
  | call
  | lambda
  | parameters
  | lambdaParameters
  | identifier
  | defaultParameter
  | typedDefaultParameter
  | typedParameter
  | listSplatPattern
  | dictionarySplatPattern
  | tuplePattern
  | listPattern
  | keywordSeparator
  | positionalSeparator
  | printStatement
  | execStatement
  | block
  | asPattern
  | asPatternTarget
  | listSplat
  | parenthesizedExpression
  | formatExpression
  | notIn
  | isNot
  | comment
  | lineContinuation
  | error
  | other
deriving DecidableEq, Repr, Inhabited

/-- the part a child plays in its parent -/
inductive Field where
  | alias_
  | alternative
  | argument
  | arguments
  | attribute_
  | body
  | cause
  | code
  | condition
  | consequence
  | definition
  | expression
  | formatSpecifier
  | function
  | guard
  | key
  | left
  | moduleName
  | name
  | object
  | operator
  | operators
  | parameters
  | returnType
  | right
  | subject
  | subscript
  | superclasses
  | type
  | typeConversion
  | typeParameters
  | value
deriving DecidableEq, Repr, Inhabited

end Python
end AnnotationAudit
