import Hyperstory.Located

/-! What can be wrong with a story file, and the words it is reported in. -/
namespace Hyperstory

inductive DiagnosticKind where
  | unterminated
  | unknown
  | unrecognized
  | invalidSectionPlacement
  | sectionAsImageSource
  | invalidLink
  | duplicateSection
  deriving DecidableEq, Repr

inductive Cause where
  | unterminated (near : String)
  | unterminatedDestination (url : String)
  | unknown (text : String)
  | unknownImage (url : String)
  | namelessSection (text : String)
  | unrecognizedLink (url : String)
  | unrecognizedModifier (modifier : String)
  | notInParagraph (text : String)
  | notAlone (text : String)
  | insideBlock (text : String)
  | contentBefore (text : String)
  | noSection
  | sectionImage (url : String)
  | variableLink
  | duplicate (name : String)
  deriving DecidableEq, Repr

namespace Cause

def kind : Cause → DiagnosticKind
  | unterminated _ | unterminatedDestination _ => .unterminated
  | unknown _ | unknownImage _ | namelessSection _ => .unknown
  | unrecognizedLink _ | unrecognizedModifier _ => .unrecognized
  | notInParagraph _ | notAlone _ | insideBlock _ | contentBefore _ | noSection =>
    .invalidSectionPlacement
  | sectionImage _ => .sectionAsImageSource
  | variableLink => .invalidLink
  | duplicate _ => .duplicateSection

def inQuotes (s : String) : String := "\"" ++ s ++ "\""

def message : Cause → String
  | unterminated near => "Unterminated macro near " ++ inQuotes near
  | unterminatedDestination url => "Unterminated macro " ++ inQuotes url
  | unknown text => "Unknown macro " ++ inQuotes text
  | unknownImage url => "Unknown macro " ++ url ++ " in image URL"
  | namelessSection text => "Section macro " ++ inQuotes text ++ " has no name"
  | unrecognizedLink url => "Unrecognized macro " ++ inQuotes url ++ " in link destination"
  | unrecognizedModifier m =>
    "Unrecognized macro modifier " ++ inQuotes m ++ " in link destination"
  | notInParagraph text =>
    "Section macro " ++ inQuotes text ++ " must be defined in its own paragraph"
  | notAlone text =>
    "Section macro " ++ inQuotes text ++ " must be defined in its own paragraph/on its own line"
  | insideBlock text =>
    "Section macro " ++ inQuotes text ++ " cannot be defined inside another block element"
  | contentBefore text => "Content before the first section declaration " ++ inQuotes text
  | noSection =>
    "Story files must begin with a section declaration like \x7b\x7bStart\x7d\x7d"
  | sectionImage url =>
    "Invalid macro " ++ url ++
      " in image URL (section macros cannot be used as image sources)"
  | variableLink => "Variable macros can't be used as link destinations"
  | duplicate name => "Section " ++ inQuotes name ++ " is declared more than once"

end Cause

abbrev Diagnostic := Located Cause

def Diagnostic.describe (d : Diagnostic) : String := Located.describe d Cause.message

end Hyperstory
