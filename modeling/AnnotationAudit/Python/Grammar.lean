import AnnotationAudit.Python.Rule

/-!
# The Python grammar

`Rule.of` gives the right-hand side of every nonterminal symbol. The grammar is wide: it
holds for version 2 of the language as for version 3, lets a line end stand for a suite, and leaves
the order of parameters open. What version 3 refuses is found later, in `AnnotationAudit.Refusal`.
-/

namespace AnnotationAudit
namespace Python

open Rule

/-! ## ranks -/

namespace Rank

def lambda : Int := -2
def typedParameter : Int := -1
def conditional : Int := -1
def parenthesized : Int := 1
def disjunction : Int := 10
def conjunction : Int := 11
def negation : Int := 12
def comparison : Int := 13
def bitwiseOr : Int := 14
def bitwiseAnd : Int := 15
def bitwiseXor : Int := 16
def shift : Int := 17
def sum : Int := 18
def product : Int := 19
def unary : Int := 20
def power : Int := 21
def call : Int := 22

end Rank

/-- binary operators with their ranks and sides -/
def binaryOperators : List (Terminal × Int × Associativity) :=
  [(.plus, Rank.sum, .left), (.minus, Rank.sum, .left), (.star, Rank.product, .left),
   (.at_, Rank.product, .left), (.slash, Rank.product, .left), (.percent, Rank.product, .left),
   (.slashSlash, Rank.product, .left), (.starStar, Rank.power, .right),
   (.bar, Rank.bitwiseOr, .left), (.ampersand, Rank.bitwiseAnd, .left),
   (.caret, Rank.bitwiseXor, .left), (.shiftLeft, Rank.shift, .left),
   (.shiftRight, Rank.shift, .left)]

/-- a comma-separated list, perhaps with a comma behind it -/
def commaList (r : Rule) : Rule := .seq (commaSep1 r) (opt (tok .comma))

/-- the right-hand side of a nonterminal symbol -/
def Rule.of : Nonterminal → Rule
  | .module => many (nt .statement)
  | .statement => anyNt [.simpleStatements, .compoundStatement]
  | .simpleStatements =>
    all [sep1 (nt .simpleStatement) (tok .semicolon), opt (tok .semicolon), tok .newline]
  | .simpleStatement =>
    anyNt [.futureImportStatement, .importStatement, .importFromStatement, .printStatement,
      .assertStatement, .expressionStatement, .returnStatement, .deleteStatement,
      .raiseStatement, .passStatement, .breakStatement, .continueStatement, .globalStatement,
      .nonlocalStatement, .execStatement, .typeAliasStatement]
  | .importStatement => all [tok .kwImport, nt .importList]
  | .importPrefix => .repeat1 (tok .dot)
  | .relativeImport => all [nt .importPrefix, opt (nt .dottedName)]
  | .futureImportStatement =>
    all [tok .kwFrom, tok .kwFuture, tok .kwImport,
      any [nt .importList, all [tok .parenOpen, nt .importList, tok .parenClose]]]
  | .importFromStatement =>
    all [tok .kwFrom, .field .moduleName (anyNt [.relativeImport, .dottedName]), tok .kwImport,
      any [nt .wildcardImport, nt .importList,
        all [tok .parenOpen, nt .importList, tok .parenClose]]]
  | .importList => commaList (.field .name (anyNt [.dottedName, .aliasedImport]))
  | .aliasedImport =>
    all [.field .name (nt .dottedName), tok .kwAs, .field .alias_ (tok .identifier)]
  | .wildcardImport => tok .star
  | .printStatement =>
    any [
      prec 1 (all [tok .kwPrint, nt .chevron,
        many (.seq (tok .comma) (.field .argument (nt .expression))), opt (tok .comma)]),
      prec (-3) (.weighed (-1) (all [tok .kwPrint,
        commaSep1 (.field .argument (nt .expression)), opt (tok .comma)]))]
  | .chevron => all [tok .shiftRight, nt .expression]
  | .assertStatement => all [tok .kwAssert, commaSep1 (nt .expression)]
  | .expressionStatement =>
    any [nt .expression, commaList (nt .expression), nt .assignment, nt .augmentedAssignment,
      nt .yieldExpression]
  | .namedExpression =>
    all [.field .name (nt .namedExpressionLeft), tok .colonEquals, .field .value (nt .expression)]
  | .namedExpressionLeft => any [tok .identifier, nt .keywordIdentifier]
  | .returnStatement => all [tok .kwReturn, opt (nt .expressions)]
  | .deleteStatement => all [tok .kwDel, nt .expressions]
  | .expressions => anyNt [.expression, .expressionList]
  | .raiseStatement =>
    all [tok .kwRaise, opt (nt .expressions),
      opt (all [tok .kwFrom, .field .cause (nt .expression)])]
  | .passStatement => precLeft 0 (tok .kwPass)
  | .breakStatement => precLeft 0 (tok .kwBreak)
  | .continueStatement => precLeft 0 (tok .kwContinue)
  | .compoundStatement =>
    anyNt [.ifStatement, .forStatement, .whileStatement, .tryStatement, .withStatement,
      .functionDefinition, .classDefinition, .decoratedDefinition, .matchStatement]
  | .ifStatement =>
    all [tok .kwIf, .field .condition (nt .expression), tok .colon,
      .field .consequence (nt .suite), many (.field .alternative (nt .elifClause)),
      opt (.field .alternative (nt .elseClause))]
  | .elifClause =>
    all [tok .kwElif, .field .condition (nt .expression), tok .colon,
      .field .consequence (nt .suite)]
  | .elseClause => all [tok .kwElse, tok .colon, .field .body (nt .suite)]
  | .matchStatement =>
    all [tok .kwMatch, commaSep1 (.field .subject (nt .expression)), opt (tok .comma), tok .colon,
      .field .body (.shown .block (nt .matchBlock))]
  | .matchBlock =>
    any [all [tok .indent, many (.field .alternative (nt .caseClause)), tok .dedent],
      tok .newline]
  | .caseClause =>
    all [tok .kwCase, commaSep1 (nt .casePattern), opt (tok .comma),
      opt (.field .guard (nt .ifClause)), tok .colon, .field .consequence (nt .suite)]
  | .forStatement =>
    all [opt (tok .kwAsync), tok .kwFor, .field .left (nt .leftHandSide), tok .kwIn,
      .field .right (nt .expressions), tok .colon, .field .body (nt .suite),
      .field .alternative (opt (nt .elseClause))]
  | .whileStatement =>
    all [tok .kwWhile, .field .condition (nt .expression), tok .colon, .field .body (nt .suite),
      opt (.field .alternative (nt .elseClause))]
  | .tryStatement =>
    all [tok .kwTry, tok .colon, .field .body (nt .suite),
      any [
        all [.repeat1 (nt .exceptClause), opt (nt .elseClause), opt (nt .finallyClause)],
        all [.repeat1 (nt .exceptGroupClause), opt (nt .elseClause), opt (nt .finallyClause)],
        nt .finallyClause]]
  | .exceptClause =>
    all [tok .kwExcept,
      opt (all [.field .value (nt .expression),
        opt (all [anyTok [.kwAs, .comma], .field .alias_ (nt .expression)])]),
      tok .colon, nt .suite]
  | .exceptGroupClause =>
    all [tok .kwExceptStar, all [nt .expression, opt (all [tok .kwAs, nt .expression])],
      tok .colon, nt .suite]
  | .finallyClause => all [tok .kwFinally, tok .colon, nt .suite]
  | .withStatement =>
    all [opt (tok .kwAsync), tok .kwWith, nt .withClause, tok .colon, .field .body (nt .suite)]
  | .withClause =>
    any [commaList (nt .withItem),
      all [tok .parenOpen, commaSep1 (nt .withItem), opt (tok .comma), tok .parenClose]]
  | .withItem => .weighed 1 (.field .value (nt .expression))
  | .functionDefinition =>
    all [opt (tok .kwAsync), tok .kwDef, .field .name (tok .identifier),
      .field .typeParameters (opt (nt .typeParameter)), .field .parameters (nt .parameters),
      opt (all [tok .arrow, .field .returnType (nt .type)]), tok .colon,
      .field .body (nt .suite)]
  | .parameters => all [tok .parenOpen, opt (nt .parameterList), tok .parenClose]
  | .lambdaParameters => nt .parameterList
  | .listSplat => all [tok .star, nt .expression]
  | .dictionarySplat => all [tok .starStar, nt .expression]
  | .globalStatement => all [tok .kwGlobal, commaSep1 (tok .identifier)]
  | .nonlocalStatement => all [tok .kwNonlocal, commaSep1 (tok .identifier)]
  | .execStatement =>
    all [tok .kwExec, .field .code (any [nt .string, tok .identifier]),
      opt (all [tok .kwIn, commaSep1 (nt .expression)])]
  | .typeAliasStatement =>
    .weighed 1 (all [tok .kwType, .field .left (nt .type), tok .equals, .field .right (nt .type)])
  | .classDefinition =>
    all [tok .kwClass, .field .name (tok .identifier),
      .field .typeParameters (opt (nt .typeParameter)),
      .field .superclasses (opt (nt .argumentList)), tok .colon, .field .body (nt .suite)]
  | .typeParameter =>
    all [tok .bracketOpen, commaSep1 (nt .type), opt (tok .comma), tok .bracketClose]
  | .parenthesizedListSplat =>
    prec Rank.parenthesized (all [tok .parenOpen,
      any [.shown .parenthesizedExpression (nt .parenthesizedListSplat), nt .listSplat],
      tok .parenClose])
  | .argumentList =>
    all [tok .parenOpen,
      opt (commaSep1 (any [nt .expression, nt .listSplat, nt .dictionarySplat,
        .shown .parenthesizedExpression (nt .parenthesizedListSplat), nt .keywordArgument])),
      opt (tok .comma), tok .parenClose]
  | .decoratedDefinition =>
    all [.repeat1 (nt .decorator),
      .field .definition (anyNt [.classDefinition, .functionDefinition])]
  | .decorator => all [tok .at_, nt .expression, tok .newline]
  | .suite =>
    any [.shown .block (nt .simpleStatements), all [tok .indent, nt .block],
      .shown .block (tok .newline)]
  | .block => all [many (nt .statement), tok .dedent]
  | .expressionList =>
    precRight 0 (all [nt .expression,
      any [tok .comma,
        all [.repeat1 (.seq (tok .comma) (nt .expression)), opt (tok .comma)]]])
  | .dottedName => prec 1 (sep1 (tok .identifier) (tok .dot))
  | .casePattern =>
    prec 1 (any [.shown .asPattern (nt .caseAsPattern), nt .keywordPattern, nt .simplePattern])
  | .simplePattern =>
    prec 1 (any [nt .classPattern, nt .splatPattern, nt .unionPattern,
      .shown .listPattern (nt .caseListPattern), .shown .tuplePattern (nt .caseTuplePattern),
      nt .dictPattern, nt .string, nt .concatenatedString, tok .kwTrue, tok .kwFalse, tok .kwNone,
      all [opt (tok .minus), anyTok [.integer, .float]], nt .complexPattern, nt .dottedName,
      tok .underscore])
  | .caseAsPattern => all [nt .casePattern, tok .kwAs, tok .identifier]
  | .unionPattern =>
    precRight 0 (all [nt .simplePattern,
      .repeat1 (precLeft 0 (all [tok .bar, nt .simplePattern]))])
  | .caseListPattern =>
    all [tok .bracketOpen, opt (commaList (nt .casePattern)), tok .bracketClose]
  | .caseTuplePattern =>
    all [tok .parenOpen, opt (commaList (nt .casePattern)), tok .parenClose]
  | .dictPattern =>
    all [tok .braceOpen, opt (commaList (anyNt [.keyValuePattern, .splatPattern])),
      tok .braceClose]
  | .keyValuePattern =>
    all [.field .key (nt .simplePattern), tok .colon, .field .value (nt .casePattern)]
  | .keywordPattern => all [tok .identifier, tok .equals, nt .simplePattern]
  | .splatPattern =>
    prec 1 (all [anyTok [.star, .starStar], anyTok [.identifier, .underscore]])
  | .classPattern =>
    all [nt .dottedName, tok .parenOpen, opt (commaList (nt .casePattern)), tok .parenClose]
  | .complexPattern =>
    prec 1 (all [opt (tok .minus), anyTok [.integer, .float], anyTok [.plus, .minus],
      anyTok [.integer, .float]])
  | .parameterList => commaList (nt .parameter)
  | .patterns => commaList (nt .pattern)
  | .parameter =>
    any [tok .identifier, nt .typedParameter, nt .defaultParameter, nt .typedDefaultParameter,
      nt .listSplatPattern, nt .tuplePattern, nt .keywordSeparator, nt .positionalSeparator,
      nt .dictionarySplatPattern]
  | .pattern =>
    any [tok .identifier, nt .keywordIdentifier, nt .subscript, nt .attributeAccess,
      nt .listSplatPattern, nt .tuplePattern, nt .listPattern]
  | .tuplePattern => all [tok .parenOpen, opt (nt .patterns), tok .parenClose]
  | .listPattern => all [tok .bracketOpen, opt (nt .patterns), tok .bracketClose]
  | .defaultParameter =>
    all [.field .name (any [tok .identifier, nt .tuplePattern]), tok .equals,
      .field .value (nt .expression)]
  | .typedDefaultParameter =>
    prec Rank.typedParameter (all [.field .name (tok .identifier), tok .colon,
      .field .type (nt .type), tok .equals, .field .value (nt .expression)])
  | .listSplatPattern =>
    all [tok .star,
      any [tok .identifier, nt .keywordIdentifier, nt .subscript, nt .attributeAccess]]
  | .dictionarySplatPattern =>
    all [tok .starStar,
      any [tok .identifier, nt .keywordIdentifier, nt .subscript, nt .attributeAccess]]
  | .asPattern =>
    precLeft 0 (all [nt .expression, tok .kwAs,
      .field .alias_ (.shown .asPatternTarget (nt .expression))])
  | .expressionWithinForInClause =>
    any [nt .expression, .shown .lambda (nt .lambdaWithinForInClause)]
  | .expression =>
    anyNt [.comparisonOperator, .notOperator, .booleanOperator, .lambda, .primaryExpression,
      .conditionalExpression, .namedExpression, .asPattern]
  | .primaryExpression =>
    any [nt .awaitExpression, nt .binaryOperator, tok .identifier, nt .keywordIdentifier,
      nt .string, nt .concatenatedString, tok .integer, tok .float, tok .kwTrue, tok .kwFalse,
      tok .kwNone, nt .unaryOperator, nt .attributeAccess, nt .subscript, nt .call, nt .list,
      nt .listComprehension, nt .dictionary, nt .dictionaryComprehension, nt .set,
      nt .setComprehension, nt .tuple, nt .parenthesizedExpression, nt .generatorExpression,
      tok .ellipsis, .shown .listSplat (nt .listSplatPattern)]
  | .notOperator =>
    prec Rank.negation (all [tok .kwNot, .field .argument (nt .expression)])
  | .booleanOperator =>
    any [
      precLeft Rank.conjunction (all [.field .left (nt .expression),
        .field .operator (tok .kwAnd), .field .right (nt .expression)]),
      precLeft Rank.disjunction (all [.field .left (nt .expression),
        .field .operator (tok .kwOr), .field .right (nt .expression)])]
  | .binaryOperator =>
    any (binaryOperators.map fun o => .ranked o.2.1 (some o.2.2)
      (all [.field .left (nt .primaryExpression), .field .operator (tok o.1),
        .field .right (nt .primaryExpression)]))
  | .unaryOperator =>
    prec Rank.unary (all [.field .operator (anyTok [.plus, .minus, .tilde]),
      .field .argument (nt .primaryExpression)])
  | .notIn => all [tok .kwNot, tok .kwIn]
  | .isNot => all [tok .kwIs, tok .kwNot]
  | .comparisonOperator =>
    precLeft Rank.comparison (all [nt .primaryExpression,
      .repeat1 (all [
        .field .operators (any [tok .less, tok .lessEquals, tok .equalsEquals, tok .bangEquals,
          tok .greaterEquals, tok .greater, tok .lessGreater, tok .kwIn,
          .shown .notIn (nt .notIn), tok .kwIs, .shown .isNot (nt .isNot)]),
        nt .primaryExpression])])
  | .lambda =>
    prec Rank.lambda (all [tok .kwLambda, .field .parameters (opt (nt .lambdaParameters)),
      tok .colon, .field .body (nt .expression)])
  | .lambdaWithinForInClause =>
    all [tok .kwLambda, .field .parameters (opt (nt .lambdaParameters)), tok .colon,
      .field .body (nt .expressionWithinForInClause)]
  | .assignment =>
    all [.field .left (nt .leftHandSide),
      any [all [tok .equals, .field .right (nt .rightHandSide)],
        all [tok .colon, .field .type (nt .type)],
        all [tok .colon, .field .type (nt .type), tok .equals,
          .field .right (nt .rightHandSide)]]]
  | .augmentedAssignment =>
    all [.field .left (nt .leftHandSide),
      .field .operator (anyTok [.plusEquals, .minusEquals, .starEquals, .slashEquals, .atEquals,
        .slashSlashEquals, .percentEquals, .starStarEquals, .shiftRightEquals, .shiftLeftEquals,
        .ampersandEquals, .caretEquals, .barEquals]),
      .field .right (nt .rightHandSide)]
  | .leftHandSide => anyNt [.pattern, .patternList]
  | .patternList =>
    all [nt .pattern,
      any [tok .comma, all [.repeat1 (.seq (tok .comma) (nt .pattern)), opt (tok .comma)]]]
  | .rightHandSide =>
    anyNt [.expression, .expressionList, .assignment, .augmentedAssignment, .patternList,
      .yieldExpression]
  | .yieldExpression =>
    precRight 0 (all [tok .kwYield,
      any [all [tok .kwFrom, nt .expression], opt (nt .expressions)]])
  | .attributeAccess =>
    prec Rank.call (all [.field .object (nt .primaryExpression), tok .dot,
      .field .attribute_ (tok .identifier)])
  | .subscript =>
    prec Rank.call (all [.field .value (nt .primaryExpression), tok .bracketOpen,
      commaSep1 (.field .subscript (anyNt [.expression, .slice])), opt (tok .comma),
      tok .bracketClose])
  | .slice =>
    all [opt (nt .expression), tok .colon, opt (nt .expression),
      opt (all [tok .colon, opt (nt .expression)])]
  | .call =>
    prec Rank.call (all [.field .function (nt .primaryExpression),
      .field .arguments (anyNt [.generatorExpression, .argumentList])])
  | .typedParameter =>
    prec Rank.typedParameter (all [
      any [tok .identifier, nt .listSplatPattern, nt .dictionarySplatPattern], tok .colon,
      .field .type (nt .type)])
  | .type =>
    any [prec 1 (nt .expression), nt .splatType, nt .genericType, nt .unionType,
      nt .constrainedType, nt .memberType]
  | .splatType => prec 1 (all [anyTok [.star, .starStar], tok .identifier])
  | .genericType =>
    prec 1 (all [any [tok .identifier, .shown .identifier (tok .kwType)], nt .typeParameter])
  | .unionType => precLeft 0 (all [nt .type, tok .bar, nt .type])
  | .constrainedType => precRight 0 (all [nt .type, tok .colon, nt .type])
  | .memberType => all [nt .type, tok .dot, tok .identifier]
  | .keywordArgument =>
    all [.field .name (any [tok .identifier, nt .keywordIdentifier]), tok .equals,
      .field .value (nt .expression)]
  | .list => all [tok .bracketOpen, opt (nt .collectionElements), tok .bracketClose]
  | .set => all [tok .braceOpen, nt .collectionElements, tok .braceClose]
  | .tuple => all [tok .parenOpen, opt (nt .collectionElements), tok .parenClose]
  | .dictionary =>
    all [tok .braceOpen, opt (commaSep1 (anyNt [.pair, .dictionarySplat])), opt (tok .comma),
      tok .braceClose]
  | .pair => all [.field .key (nt .expression), tok .colon, .field .value (nt .expression)]
  | .listComprehension =>
    all [tok .bracketOpen, .field .body (nt .expression), nt .comprehensionClauses,
      tok .bracketClose]
  | .dictionaryComprehension =>
    all [tok .braceOpen, .field .body (nt .pair), nt .comprehensionClauses, tok .braceClose]
  | .setComprehension =>
    all [tok .braceOpen, .field .body (nt .expression), nt .comprehensionClauses,
      tok .braceClose]
  | .generatorExpression =>
    all [tok .parenOpen, .field .body (nt .expression), nt .comprehensionClauses,
      tok .parenClose]
  | .comprehensionClauses => all [nt .forInClause, many (anyNt [.forInClause, .ifClause])]
  | .parenthesizedExpression =>
    prec Rank.parenthesized (all [tok .parenOpen, anyNt [.expression, .yieldExpression],
      tok .parenClose])
  | .collectionElements =>
    commaList (anyNt [.expression, .yieldExpression, .listSplat, .parenthesizedListSplat])
  | .forInClause =>
    precLeft 0 (all [opt (tok .kwAsync), tok .kwFor, .field .left (nt .leftHandSide), tok .kwIn,
      .field .right (commaSep1 (nt .expressionWithinForInClause)), opt (tok .comma)])
  | .ifClause => all [tok .kwIf, nt .expression]
  | .conditionalExpression =>
    precRight Rank.conditional (all [nt .expression, tok .kwIf, nt .expression, tok .kwElse,
      nt .expression])
  | .concatenatedString => all [nt .string, .repeat1 (nt .string)]
  | .string =>
    all [tok .stringStart, many (anyNt [.interpolation, .stringContent]), tok .stringEnd]
  | .stringContent =>
    precRight 0 (.repeat1 (anyTok [.escapeInterpolation, .escapeSequence, .loneBackslash,
      .stringContent]))
  | .interpolation =>
    all [tok .braceOpen, .field .expression (nt .fExpression), opt (tok .equals),
      opt (.field .typeConversion (tok .typeConversion)),
      opt (.field .formatSpecifier (nt .formatSpecifier)), tok .braceClose]
  | .fExpression => anyNt [.expression, .expressionList, .patternList, .yieldExpression]
  | .formatSpecifier =>
    all [tok .colon,
      many (any [tok .formatText, .shown .formatExpression (nt .interpolation)])]
  | .keywordIdentifier =>
    any [prec (-3) (.shown .identifier (anyTok [.kwPrint, .kwExec, .kwAsync, .kwAwait])),
      .shown .identifier (anyTok [.kwType, .kwMatch])]
  | .awaitExpression => prec Rank.unary (all [tok .kwAwait, nt .primaryExpression])
  | .positionalSeparator => tok .slash
  | .keywordSeparator => tok .star

end Python
end AnnotationAudit
