import AnnotationAudit.Python.Kind

/-!
# Nonterminal symbols

* `Nonterminal`            the nonterminal symbols of the Python grammar, in order;
* `Nonterminal.isHidden`   those whose nodes dissolve into their parents;
* `Nonterminal.isInlined`  those that are replaced by their right-hand sides before anything else.
-/

namespace AnnotationAudit
namespace Python

/-- a nonterminal symbol -/
inductive Nonterminal where
  | module
  | statement
  | simpleStatements
  | simpleStatement
  | importStatement
  | importPrefix
  | relativeImport
  | futureImportStatement
  | importFromStatement
  | importList
  | aliasedImport
  | wildcardImport
  | printStatement
  | chevron
  | assertStatement
  | expressionStatement
  | namedExpression
  | namedExpressionLeft
  | returnStatement
  | deleteStatement
  | expressions
  | raiseStatement
  | passStatement
  | breakStatement
  | continueStatement
  | compoundStatement
  | ifStatement
  | elifClause
  | elseClause
  | matchStatement
  | matchBlock
  | caseClause
  | forStatement
  | whileStatement
  | tryStatement
  | exceptClause
  | exceptGroupClause
  | finallyClause
  | withStatement
  | withClause
  | withItem
  | functionDefinition
  | parameters
  | lambdaParameters
  | listSplat
  | dictionarySplat
  | globalStatement
  | nonlocalStatement
  | execStatement
  | typeAliasStatement
  | classDefinition
  | typeParameter
  | parenthesizedListSplat
  | argumentList
  | decoratedDefinition
  | decorator
  | suite
  | block
  | expressionList
  | dottedName
  | casePattern
  | simplePattern
  | caseAsPattern
  | unionPattern
  | caseListPattern
  | caseTuplePattern
  | dictPattern
  | keyValuePattern
  | keywordPattern
  | splatPattern
  | classPattern
  | complexPattern
  | parameterList
  | patterns
  | parameter
  | pattern
  | tuplePattern
  | listPattern
  | defaultParameter
  | typedDefaultParameter
  | listSplatPattern
  | dictionarySplatPattern
  | asPattern
  | expressionWithinForInClause
  | expression
  | primaryExpression
  | notOperator
  | booleanOperator
  | binaryOperator
  | unaryOperator
  | notIn
  | isNot
  | comparisonOperator
  | lambda
  | lambdaWithinForInClause
  | assignment
  | augmentedAssignment
  | leftHandSide
  | patternList
  | rightHandSide
  | yieldExpression
  | attributeAccess
  | subscript
  | slice
  | call
  | typedParameter
  | type
  | splatType
  | genericType
  | unionType
  | constrainedType
  | memberType
  | keywordArgument
  | list
  | set
  | tuple
  | dictionary
  | pair
  | listComprehension
  | dictionaryComprehension
  | setComprehension
  | generatorExpression
  | comprehensionClauses
  | parenthesizedExpression
  | collectionElements
  | forInClause
  | ifClause
  | conditionalExpression
  | concatenatedString
  | string
  | stringContent
  | interpolation
  | fExpression
  | formatSpecifier
  | keywordIdentifier
  | awaitExpression
  | positionalSeparator
  | keywordSeparator
deriving DecidableEq, Repr, Inhabited

namespace Nonterminal

def all : List Nonterminal :=
  [.module, .statement, .simpleStatements, .simpleStatement, .importStatement, .importPrefix,
   .relativeImport, .futureImportStatement, .importFromStatement, .importList, .aliasedImport,
   .wildcardImport, .printStatement, .chevron, .assertStatement, .expressionStatement,
   .namedExpression, .namedExpressionLeft, .returnStatement, .deleteStatement, .expressions,
   .raiseStatement, .passStatement, .breakStatement, .continueStatement, .compoundStatement,
   .ifStatement, .elifClause, .elseClause, .matchStatement, .matchBlock, .caseClause,
   .forStatement, .whileStatement, .tryStatement, .exceptClause, .exceptGroupClause,
   .finallyClause, .withStatement, .withClause, .withItem, .functionDefinition, .parameters,
   .lambdaParameters, .listSplat, .dictionarySplat, .globalStatement, .nonlocalStatement,
   .execStatement, .typeAliasStatement, .classDefinition, .typeParameter,
   .parenthesizedListSplat, .argumentList, .decoratedDefinition, .decorator, .suite, .block,
   .expressionList, .dottedName, .casePattern, .simplePattern, .caseAsPattern, .unionPattern,
   .caseListPattern, .caseTuplePattern, .dictPattern, .keyValuePattern, .keywordPattern,
   .splatPattern, .classPattern, .complexPattern, .parameterList, .patterns, .parameter, .pattern,
   .tuplePattern, .listPattern, .defaultParameter, .typedDefaultParameter, .listSplatPattern,
   .dictionarySplatPattern, .asPattern, .expressionWithinForInClause, .expression,
   .primaryExpression, .notOperator, .booleanOperator, .binaryOperator, .unaryOperator, .notIn,
   .isNot, .comparisonOperator, .lambda, .lambdaWithinForInClause, .assignment,
   .augmentedAssignment, .leftHandSide, .patternList, .rightHandSide, .yieldExpression,
   .attributeAccess, .subscript, .slice, .call, .typedParameter, .type, .splatType, .genericType,
   .unionType, .constrainedType, .memberType, .keywordArgument, .list, .set, .tuple, .dictionary,
   .pair, .listComprehension, .dictionaryComprehension, .setComprehension, .generatorExpression,
   .comprehensionClauses, .parenthesizedExpression, .collectionElements, .forInClause, .ifClause,
   .conditionalExpression, .concatenatedString, .string, .stringContent, .interpolation,
   .fExpression, .formatSpecifier, .keywordIdentifier, .awaitExpression, .positionalSeparator,
   .keywordSeparator]

def rank (n : Nonterminal) : Nat := n.ctorIdx

def count : Nat := 138

set_option maxRecDepth 1000 in
theorem length_all : all.length = count := rfl

/-- the list holds every symbol at its rank -/
theorem getElem?_all (n : Nonterminal) : all[n.rank]? = some n := by cases n <;> rfl

/-- do nodes of the symbol dissolve into their parents? -/
def isHidden : Nonterminal → Bool
  | .statement | .simpleStatements | .simpleStatement | .importList | .namedExpressionLeft
  | .expressions | .compoundStatement | .matchBlock | .suite | .simplePattern | .caseAsPattern
  | .caseListPattern | .caseTuplePattern | .keyValuePattern | .parameterList | .patterns
  | .parameter | .pattern | .expressionWithinForInClause | .expression | .primaryExpression
  | .notIn | .isNot | .leftHandSide | .rightHandSide | .comprehensionClauses
  | .collectionElements | .fExpression => true
  | _ => false

/-- is the symbol replaced by its right-hand sides wherever it is used? -/
def isInlined : Nonterminal → Bool
  | .simpleStatement | .compoundStatement | .suite | .expressions | .leftHandSide
  | .keywordIdentifier => true
  | _ => false

def kind : Nonterminal → Kind
  | .module => .module
  | .functionDefinition => .functionDefinition
  | .classDefinition => .classDefinition
  | .decoratedDefinition => .decoratedDefinition
  | .decorator => .decorator
  | .call => .call
  | .lambda => .lambda
  | .parameters => .parameters
  | .lambdaParameters => .lambdaParameters
  | .defaultParameter => .defaultParameter
  | .typedDefaultParameter => .typedDefaultParameter
  | .typedParameter => .typedParameter
  | .listSplatPattern => .listSplatPattern
  | .dictionarySplatPattern => .dictionarySplatPattern
  | .tuplePattern => .tuplePattern
  | .listPattern => .listPattern
  | .keywordSeparator => .keywordSeparator
  | .positionalSeparator => .positionalSeparator
  | .printStatement => .printStatement
  | .execStatement => .execStatement
  | .block => .block
  | .asPattern => .asPattern
  | .listSplat => .listSplat
  | .parenthesizedExpression => .parenthesizedExpression
  | _ => .other

end Nonterminal

end Python
end AnnotationAudit
