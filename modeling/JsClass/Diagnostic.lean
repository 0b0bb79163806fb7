import JsClass.Source.Place
import JsClass.Text.CodePoint

/-! Problems in a program, as causes with a position. -/
namespace JsClass

/-- What is wrong. The words and texts that a message quotes are part of the cause. -/
inductive Cause where
  | unexpectedEnd
  | unexpectedToken (text : Text)
  | restNotLast (found : Text)
  | yieldAsIdentifier
  | awaitAsIdentifier
  | unexpectedKeyword (word : String)
  | reservedWord (word : String)
  | unsupportedStatement (word : String)
  | letAsLexicalName
  | missingInitializer
  | returnOutsideFunction
  | multipleDefaults
  | newlineAfterThrow
  | missingHandler
  | deleteOfLocal
  | assignToRvalue
  | newTarget
  | earlyAsyncGenerator
  | missingFunctionName
  | missingClassName
  | duplicateConstructor
  | accessorConstructor
  | generatorConstructor
  | asyncConstructor
  | missingPrivateWord
  | staticPrototype
  | getterParams
  | setterArity
  | setterRest
  | duplicatePrivate (name : String)
  | privateStaticConstructor
  | privateStaticPrototype
  | undeclaredPrivate (name : String)
  | deleteOfPrivate
  | argumentsInFieldValue
  | superInFieldValue
  | directSuperCall
  | staticConstructor
deriving DecidableEq

namespace Cause

def message : Cause → Text
  | .unexpectedEnd => .ofString "Unexpected end of input"
  | .unexpectedToken text => .ofString "Unexpected token '" ++ text ++ .ofString "'"
  | .restNotLast found =>
    .ofString "Expected ')' after rest parameter, got '" ++ found ++ .ofString "'"
  | .yieldAsIdentifier => .ofString "Cannot use 'yield' as identifier inside a generator"
  | .awaitAsIdentifier => .ofString "Cannot use 'await' as identifier inside an async function"
  | .unexpectedKeyword word => .ofString s!"Unexpected keyword '{word}'"
  | .reservedWord word => .ofString s!"The keyword '{word}' is reserved"
  | .unsupportedStatement word => .ofString s!"'{word}' statements are not supported"
  | .letAsLexicalName => .ofString "let is disallowed as a lexically bound name"
  | .missingInitializer => .ofString "Missing initializer in const declaration"
  | .returnOutsideFunction => .ofString "'return' outside of function"
  | .multipleDefaults => .ofString "Multiple default clauses"
  | .newlineAfterThrow => .ofString "Illegal newline after throw"
  | .missingHandler => .ofString "Missing catch or finally clause"
  | .deleteOfLocal => .ofString "Deleting local variable in strict mode"
  | .assignToRvalue => .ofString "Assigning to rvalue"
  | .newTarget => .ofString "'new.target' is not supported"
  | .earlyAsyncGenerator => .ofString "Async generators are not supported before ES2018"
  | .missingFunctionName => .ofString "A function name is required"
  | .missingClassName => .ofString "A class name is required"
  | .duplicateConstructor => .ofString "Duplicate constructor in the same class"
  | .accessorConstructor => .ofString "Constructor can't have get/set modifier"
  | .generatorConstructor => .ofString "Constructor can't be a generator"
  | .asyncConstructor => .ofString "Constructor can't be an async method"
  | .missingPrivateWord => .ofString "Expected identifier after '#'"
  | .staticPrototype => .ofString "Classes may not have a static property named prototype"
  | .getterParams => .ofString "getter should have no params"
  | .setterArity => .ofString "setter should have exactly one param"
  | .setterRest => .ofString "Setter cannot use rest params"
  | .duplicatePrivate name => .ofString s!"Duplicate private element #{name}"
  | .privateStaticConstructor =>
    .ofString "Classes may not have a private static property named #constructor"
  | .privateStaticPrototype =>
    .ofString "Classes may not have a private static field named #prototype"
  | .undeclaredPrivate name => .ofString s!"Usage of undeclared private name #{name}"
  | .deleteOfPrivate => .ofString "Private elements may not be deleted"
  | .argumentsInFieldValue =>
    .ofString "A static class field initializer may not contain arguments"
  | .superInFieldValue => .ofString "A static class field initializer may not contain super"
  | .directSuperCall =>
    .ofString "A class method that is not a constructor may not contain a direct super"
  | .staticConstructor => .ofString "Classes may not have a static field named constructor"

end Cause

structure Diagnostic where
  cause : Cause
  pos : Position
deriving DecidableEq

end JsClass
