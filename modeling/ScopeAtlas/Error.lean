import ScopeAtlas.Text.Quoted

namespace ScopeAtlas

inductive ErrorKind
  | invalidInput
  | markup
  | unknownLanguage
  | settings
  | inaccessible
deriving DecidableEq, Repr

inductive Error
  | malformedMarkup
  | unclosedElement (tag : String)
  | noRootElement
  | secondRootElement
  | notUnitRoot (tag : String)
  | unreadableFile
  | unknownLocationScheme (text : String)
  | locationWithoutFragment
  | fragmentWithoutLine
  | badLineNumber (text : String)
  | unknownAccess (text : String)
  | unknownTypeKind (text : String)
  | unknownCategory (text : String)
  | unknownEdgeKind (text : String)
  | unknownLanguage (text : String)
  | noLanguageForUnit (file : String)
  | unknownLanguageInSettings (name : String)
  | noProfileFor (language : String)
  | notUnit (tag : String)
  | notImport (expected found : String)
  | importWithoutName (tag : String)
  | notType (tag : String)
  | notNamespace (tag : String)
  | notMethod (tag : String)
  | notContainer (tag : String)
  | unifyRetired (into source : Nat)
  | unifyDifferent (into : Nat) (intoText : String) (source : Nat) (sourceText : String)
  | unifyIntoDescendant (source into : Nat)
deriving DecidableEq, Repr

namespace Error

def kind : Error → ErrorKind
  | malformedMarkup | unclosedElement _ | noRootElement | secondRootElement => .markup
  | unknownLanguage _ | noLanguageForUnit _ => .unknownLanguage
  | unknownLanguageInSettings _ | noProfileFor _ => .settings
  | unreadableFile => .inaccessible
  | _ => .invalidInput

def cause : Error → String
  | malformedMarkup => "malformed markup"
  | unclosedElement tag => s!"unclosed element <{tag}>"
  | noRootElement => "document has no root element"
  | secondRootElement => "document has more than one root element"
  | notUnitRoot tag => s!"expected a <unit> root element, found <{tag}>"
  | unreadableFile => "unreadable file"
  | unknownLocationScheme text => s!"location must start with srcml:// or srcml-ref://: {text}"
  | locationWithoutFragment => "location must contain # fragment"
  | fragmentWithoutLine => "fragment must contain @line"
  | badLineNumber text => s!"Invalid line number: {text}"
  | unknownAccess text => s!"Unknown access modifier: {text}"
  | unknownTypeKind text => s!"Unknown type kind: {text}"
  | unknownCategory text => s!"Unknown scope category: {text}"
  | unknownEdgeKind text => s!"Unknown edge kind: {text}"
  | unknownLanguage text => text
  | noLanguageForUnit file => "no language for unit " ++ Text.quoted file
  | unknownLanguageInSettings name => "unknown language " ++ Text.quoted name
  | noProfileFor language => s!"no descriptor registered for {language}"
  | notUnit tag => s!"expected <unit>, found <{tag}>"
  | notImport expected found => s!"expected <{expected}>, found <{found}>"
  | importWithoutName tag => s!"<{tag}> without a name"
  | notType tag => s!"<{tag}> is not a type"
  | notNamespace tag => s!"<{tag}> is not a namespace"
  | notMethod tag => s!"<{tag}> is not a method"
  | notContainer tag => s!"<{tag}> is not a container"
  | unifyRetired into source => s!"cannot unify #{into} and #{source}: not live"
  | unifyDifferent into intoText source sourceText =>
    s!"cannot unify #{into} ({intoText}) with #{source} ({sourceText})"
  | unifyIntoDescendant source into => s!"cannot unify #{source} into its descendant #{into}"

end Error

def ErrorKind.heading : ErrorKind → String
  | .invalidInput => "Invalid input: "
  | .markup => "XML error: "
  | .unknownLanguage => "Unknown language: "
  | .settings => "Configuration error: "
  | .inaccessible => "IO error: "

def Error.message (error : Error) : String :=
  error.kind.heading ++ error.cause

end ScopeAtlas
