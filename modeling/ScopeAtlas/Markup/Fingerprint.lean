import ScopeAtlas.Markup.Element

namespace ScopeAtlas

def Attributes.feed : Attributes → String
  | [] => ""
  | (name, value) :: rest => " " ++ name ++ "=" ++ value ++ Attributes.feed rest

def Content.feed : Content → String
  | .nil => ""
  | .text run rest => run ++ rest.feed
  | .element tag attributes _ _ inner rest =>
    "<" ++ tag ++ attributes.feed ++ ">" ++ inner.feed ++ "</>" ++ rest.feed

def Element.feed (e : Element) : String :=
  "<" ++ e.tag ++ e.attributes.feed ++ ">" ++ e.content.feed ++ "</>"

end ScopeAtlas
