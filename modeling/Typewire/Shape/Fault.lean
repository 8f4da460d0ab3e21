-- What can be wrong with types once they are read: names, tags, cycles and reserved places.
import Typewire.Shape.Basic

namespace Typewire

/-- What is wrong with some types. -/
inductive ResolveError where
  | unknownType (name : String)
  | unknownPrimitive (name : String)
  /-- A position or a place that the types do not have. -/
  | unknownPlace (index : Nat)
  | genericArity (name : String) (expected found : Nat)
  /-- Type arguments for a type that takes none. -/
  | notGeneric (name : String)
  /-- A generic type without its arguments. -/
  | missingArguments (name : String)
  /-- A type whose every value holds a value of that same type. -/
  | infiniteType (label : String)
  | instantiationTooDeep (name : String)
  | duplicateName (name : String)
  /-- A primitive name that is declared again. -/
  | reservedName (name : String)
  | duplicateVariant (name : String)
  | duplicateTag (name : String) (tag : UInt8)
  /-- A tag that does not fit in one byte. -/
  | invalidTag (name : String) (tag : Nat)
  | tooManyVariants
  | duplicateField (name : String)
  | invalidCompact (found : String)
  /-- A reserved place that nothing came to fill. -/
  | undefinedPlace (id : TypeId)
  /-- What is wrong inside a definition. -/
  | inDefinition (line : Nat) (label : String) (cause : ResolveError)
  deriving DecidableEq, Repr, Inhabited

namespace ResolveError

/-- The error in words. -/
def message : ResolveError → String
  | unknownType name => s!"unknown type `{name}`"
  | unknownPrimitive name => s!"unknown primitive `#{name}`"
  | unknownPlace index => s!"type id {index} is out of range"
  | genericArity name expected found =>
    s!"`{name}` expects {expected} type argument(s), found {found}"
  | notGeneric name => s!"`{name}` is not generic but was given type arguments"
  | missingArguments name => s!"generic type `{name}` used without type arguments"
  | infiniteType label => s!"`{label}` expands to itself without indirection"
  | instantiationTooDeep name => s!"instantiation of `{name}` exceeds the maximum nesting depth"
  | duplicateName name => s!"`{name}` is declared more than once"
  | reservedName name => s!"`{name}` is a primitive type name and cannot be redefined"
  | duplicateVariant name => s!"enum variant `{name}` is declared more than once"
  | duplicateTag name tag => s!"enum tag {tag} of variant `{name}` collides with another variant"
  | invalidTag name tag => s!"enum tag {tag} of variant `{name}` does not fit in one byte"
  | tooManyVariants => "enum has more than 256 variants"
  | duplicateField name => s!"struct field `{name}` is declared more than once"
  | invalidCompact found => s!"compact encoding requires an unsigned integer, found `{found}`"
  | undefinedPlace id => s!"type slot {TypeId.text id} was reserved but never defined"
  | inDefinition line label cause => s!"in definition `{label}` (line {line}): {cause.message}"

/-- What is wrong itself, without the definition around it. -/
def cause? : ResolveError → Option ResolveError
  | inDefinition _ _ cause => some cause
  | _ => none

/-- The error inside a definition; an error that already names a definition keeps it. -/
def within (e : ResolveError) (line : Nat) (label : String) : ResolveError :=
  match e with
  | inDefinition line label cause => inDefinition line label cause
  | e => inDefinition line label e

end ResolveError

end Typewire
