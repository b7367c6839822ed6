import ScopeAtlas.Lookup.Variable

namespace ScopeAtlas

namespace Call

def namedTypes (g : Graph) (call : Call) : Except Fault (List ScopeId) :=
  g.lookup .type call.name call.imports call.scope

def sharesFlag (call : Call) (m : MethodDefinition) : Bool :=
  (call.isConstructor && m.isConstructor) || (call.isDestructor && m.isDestructor)

def candidates (g : Graph) (call : Call) : Except Fault (List ScopeId) :=
  if call.name.isEmpty || !g.contains call.scope then .ok []
  else if call.isConstructor || call.isDestructor then do
    searchEach (g.childrenWith fun s => s.method?.any call.sharesFlag) (← call.namedTypes g)
  else
    match receiverOf g call.receivers with
    | some scopes => do searchEach (g.membersNamed .method call.name) (← scopes)
    | none => g.lookup .method call.name call.imports call.scope

def resultTypes (g : Graph) (id : ScopeId) : Except Fault (List ScopeId) := do
  match (← g.scope id).method? with
  | none => return []
  | some m =>
    if m.isConstructor then return (← g.enclosingType? id).toList
    else
      match m.returnType with
      | some type => type.candidates g
      | none => return []

-- The types that a call may give; a constructor call that reaches no method gives the types it names.
def types (g : Graph) (call : Call) : Except Fault (List ScopeId) := do
  let methods ← call.candidates g
  if call.isConstructor && methods.isEmpty then call.namedTypes g
  else searchEach (resultTypes g) methods

end Call

def Graph.callsTo (g : Graph) (id callee : ScopeId) : Except Fault (List Call) := do
  (← g.callsWithin id).filterM fun call => return (← call.candidates g).contains callee

end ScopeAtlas
