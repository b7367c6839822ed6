import ScopeAtlas.Graph.Unite
import ScopeAtlas.Survey.Site

namespace ScopeAtlas

structure Context where
  graph : Graph := .empty
  stack : List ScopeId
  site : Site
  region : Option String := none
  -- Template parameters that wait for their type.
  typeParameters : List String := []

abbrev Survey := ExceptT Error (StateM Context)

namespace Context

def start (file : String) (language : Language) : Context where
  stack := [Graph.empty.root]
  site := { file, language }

def current (c : Context) : ScopeId := c.stack.head?.getD c.graph.root

def openScope (c : Context) (s : Scope) : Context :=
  let (id, graph) := c.graph.insert s
  { c with graph, stack := id :: c.stack }

def closeScope (c : Context) : Context := { c with stack := c.stack.tail }

def modifyCurrent (c : Context) (change : Scope → Scope) : Context :=
  { c with graph := c.graph.modify c.current change }

end Context

namespace Survey

-- A failed survey keeps its state, so every change to the surroundings is undone on the way out as well.
def thenAlways (step : Survey α) (restore : Context → Context) : Survey α :=
  ExceptT.mk do
    let outcome ← step.run
    modify restore
    return outcome

def current : Survey ScopeId := return (← get).current

-- Opens a scope for an element, takes a step in it and closes it. The scope is then placed under the one that was open
-- before, where it may be united with a sibling; the answer is the id it lives on as.
def withScope (make : ScopeId → Scope) (e : Element) (isReference : Bool) (step : Survey Unit) : Survey ScopeId := do
  let c ← get
  let id := c.graph.size
  let s := (make id).addLocation (c.site.locate e isReference)
  set (c.openScope { s with language := some c.site.language })
  ExceptT.mk do
    let outcome ← step.run
    let inner := (← get).closeScope
    let (survivor, graph) := inner.graph.adopt c.current id
    set { inner with graph }
    return outcome.map fun _ => survivor

def withImports (found : List Import) (step : Survey Unit) : Survey Unit := do
  let before := (← get).site.imports
  modify fun c => { c with site.imports := before ++ found }
  thenAlways step fun c => { c with site.imports := before }

def withRegion (region : Option String) (step : Survey Unit) : Survey Unit := do
  let before := (← get).region
  modify fun c => { c with region }
  thenAlways step fun c => { c with region := before }

def withTypeParameters (names : List String) (step : Survey Unit) : Survey Unit := do
  modify fun c => { c with typeParameters := names }
  thenAlways step fun c => { c with typeParameters := [] }

def takeTypeParameters : Survey (List String) := do
  let names := (← get).typeParameters
  modify fun c => { c with typeParameters := [] }
  return names

end Survey

end ScopeAtlas
