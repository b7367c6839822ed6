namespace ScopeAtlas.Text

-- Keywords are ASCII, and besides `A` to `Z` the Kelvin sign alone has a lower case in ASCII.
def foldCase (text : String) : String :=
  text.map fun c => if c == '\u212a' then 'k' else c.toLower

end ScopeAtlas.Text
