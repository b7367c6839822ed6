import ScopeAtlas.Markup.Element

namespace ScopeAtlas

def childPosition (parent tag : String) (number : Nat) : String :=
  parent ++ "/" ++ tag ++ "[" ++ toString number ++ "]"

-- Gives out positions below `parent`; `earlier` holds the tags of the siblings already passed.
def Content.positioned (parent : String) (earlier : List String) : Content → Content
  | .nil => .nil
  | .text run rest => .text run (rest.positioned parent earlier)
  | .element tag attributes _ line inner rest =>
    let here := childPosition parent tag (earlier.count tag + 1)
    .element tag attributes here line (inner.positioned here []) (rest.positioned parent (tag :: earlier))

def Element.positioned (e : Element) : Element :=
  let here := "/" ++ e.tag
  { e with position := here, content := e.content.positioned here [] }

end ScopeAtlas
