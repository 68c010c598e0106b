import TemplateScan.Dialect.Lookup

/-! # Grammars — what the scanner asks of a dialect

    The scanner never looks a name up itself.  It says which category of name it expects, lets the
    grammar resolve the name, and then asks about the entry found.  Any type with these operations
    will do; a `Lookup` in a dialect is the usual one.

    Only the first five operations have to be given.  The others describe, unless they are given
    too, a dialect in which every tag takes arguments and stands anywhere, no filter takes any,
    and no object is checked. -/

namespace TemplateScan

/-- The questions that the scanner asks of a dialect, and the moves it makes in it. -/
class Grammar (γ : Type) where
  /-- Expect names of the given category from now on. -/
  setExpect : γ → Expect → γ
  /-- The category of name expected. -/
  expect : γ → Expect
  /-- The name is known in the expected category. -/
  knows : γ → String → Bool
  /-- Make the entry of the name, in the expected category, the current one. -/
  resolve : γ → String → γ
  /-- The category of the current tag. -/
  kind? : γ → Option TagKind
  /-- The current tag has neither arguments nor a body. -/
  isSingular : γ → Bool := fun _ => false
  /-- The current tag opens a block. -/
  isBlock : γ → Bool := fun _ => false
  /-- The place of the current tag is restricted. -/
  hasPlacement : γ → Bool := fun _ => false
  /-- The current tag may stand directly inside the given one, or at the top. -/
  allowsParent : γ → Option String → Bool := fun _ _ => true
  /-- The current tag takes arguments. -/
  hasArguments : γ → Bool := fun _ => true
  /-- The language of the body of the current tag. -/
  language? : γ → Option Language := fun _ => none
  /-- Whether a modifier of the current tag takes a value; `none` when there is no such one. -/
  parameter? : γ → String → Option Bool := fun _ _ => none
  /-- Whether the current object has a property; `none` when that is not checked. -/
  hasProperty? : γ → String → Option Bool := fun _ _ => none
  /-- Go on to a property of the current object. -/
  enterProperty : γ → String → γ := fun g _ => g
  /-- Check the current path no longer. -/
  releaseObject : γ → γ := id
  /-- The current filter takes arguments. -/
  filterTakesArguments : γ → Bool := fun _ => false
  /-- The first argument of the current filter must be given. -/
  filterRequiresArguments : γ → Bool := fun _ => false
  /-- How the current argument is written; `none` when there is no current argument. -/
  argumentKind? : γ → Option ArgumentKind := fun _ => none
  /-- The current argument must be given. -/
  isRequired : γ → Bool := fun _ => false
  /-- The current argument accepts values of the given type. -/
  accepts : γ → ValueType → Bool := fun _ _ => true
  /-- No argument follows the current one. -/
  isLast : γ → Bool := fun _ => true
  /-- Going on to the next argument leads to one. -/
  hasNext : γ → Bool := fun _ => false
  /-- Go on to the next argument. -/
  nextArgument : γ → γ := id
  /-- Forget the current filter. -/
  resetFilter : γ → γ := id
  /-- Some HTML elements are tracked. -/
  hasAssociates : γ → Bool := fun _ => false
  /-- The HTML element of the given name is tracked. -/
  isAssociate : γ → String → Bool := fun _ _ => false

namespace Lookup

instance : Grammar Lookup where
  setExpect := setExpect
  expect := expect
  knows := isKnown
  resolve := resolve
  kind? l := l.tagRule?.map (·.kind)
  isSingular l := l.tagRule?.any (·.singular)
  isBlock l := l.tagRule?.any (·.block)
  hasPlacement l := l.tagRule?.any (·.hasPlacement)
  allowsParent l parent := l.tagRule?.any (·.allowsParent parent)
  hasArguments l := l.tagRule?.any (·.arguments)
  language? l := l.tagRule?.bind (·.language)
  parameter? l name := l.tagRule?.bind (·.parameter? name)
  hasProperty? := hasProperty?
  enterProperty := enterProperty
  releaseObject := releaseObject
  filterTakesArguments l := l.filter.any (·.hasArguments)
  filterRequiresArguments l := l.filter.any (·.requiresArguments)
  argumentKind? l := l.argument?.map (·.kind)
  isRequired l := l.argument?.any (·.required)
  accepts l value := l.argument?.any (·.accepts value)
  isLast := isLastArgument
  hasNext l := !l.isLastArgument
  nextArgument := nextArgument
  resetFilter := resetFilter
  hasAssociates := hasAssociates
  isAssociate := isAssociate

end Lookup

end TemplateScan
