/-
Scopes.

A scope binds names to values.  All scopes of a run are kept, numbered in the order in which
they were opened, so a function can go on using the scopes it was made in.  Names are looked
up along a chain of scopes, innermost first.

* `Scopes.resolve?`, `Scopes.lookup?` : the scope that binds a name, and the value
  it has there;
* `Scopes.declare`, `Scopes.assign?` : a new binding, and a new value for an old one;
* `Scopes.functionScope` : where `var` binds;
* `Scopes.owner?` : the function that a scope belongs to, found through parents;
* `Scopes.get?_declare`, `Scopes.get?_openScope` : a scope after a binding and after
  a new scope.
-/
import ScriptReplay.Table
import ScriptReplay.Value

namespace ScriptReplay

/-- What opened a scope. -/
inductive ScopeKind where
  | global
  | function
  | block
  deriving DecidableEq, Repr

/-- The value of a name, and whether it is fixed. -/
structure Binding where
  value : Value
  isConst : Bool

/-- A scope.  The parent is the scope that was innermost when it was opened. -/
structure Scope where
  id : ScopeId
  kind : ScopeKind
  name : String
  vars : Table Binding
  parent : Option ScopeId

/-- The value of a name in this scope alone. -/
def Scope.get? (s : Scope) (name : String) : Option Value :=
  (s.vars.get? name).map (·.value)

/-- The names and values of a scope. -/
def Scope.values (s : Scope) : Table Value :=
  s.vars.mapValues (·.value)

/-- All scopes of a run, each at the index that is its number. -/
structure Scopes where
  all : Array Scope

namespace Scopes

/-- The number of the global scope. -/
def globalId : ScopeId := 0

/-- The scopes of a fresh run: the global one. -/
def initial : Scopes :=
  ⟨#[⟨globalId, .global, "Global", .empty, none⟩]⟩

instance : Inhabited Scopes := ⟨initial⟩

/-- The scope with this number. -/
def get? (s : Scopes) (id : ScopeId) : Option Scope :=
  s.all[id]?

/-- The number of scopes. -/
def size (s : Scopes) : Nat :=
  s.all.size

/-- A new scope inside the innermost one of a chain. -/
def openScope (s : Scopes) (kind : ScopeKind) (name : String) (chain : Chain) :
    ScopeId × Scopes :=
  (s.all.size, ⟨s.all.push ⟨s.all.size, kind, name, .empty, chain.head?⟩⟩)

/-- The scopes with one of them changed. -/
def modify (s : Scopes) (id : ScopeId) (f : Scope → Scope) : Scopes :=
  ⟨s.all.modify id f⟩

/-- Whether a scope binds a name. -/
def binds (s : Scopes) (id : ScopeId) (name : String) : Bool :=
  (s.get? id).any (·.vars.contains name)

/-- The innermost scope of a chain that binds a name. -/
def resolve? (s : Scopes) (chain : Chain) (name : String) : Option ScopeId :=
  chain.find? (s.binds · name)

/-- The value of a name along a chain. -/
def lookup? (s : Scopes) (chain : Chain) (name : String) : Option Value :=
  (s.resolve? chain name).bind fun id => (s.get? id).bind (·.get? name)

/-- Binds a name in a scope, in place of any binding it has there. -/
def declare (s : Scopes) (id : ScopeId) (name : String) (value : Value) (isConst : Bool) :
    Scopes :=
  s.modify id fun scope => { scope with vars := scope.vars.insert name ⟨value, isConst⟩ }

/-- Whether a name is fixed in a scope. -/
def isConst (s : Scopes) (id : ScopeId) (name : String) : Bool :=
  ((s.get? id).bind (·.vars.get? name)).any (·.isConst)

/-- Gives a name a new value in the innermost scope that binds it, or else in the global one.
Gives the scope written; none if the name is fixed there. -/
def assign? (s : Scopes) (chain : Chain) (name : String) (value : Value) :
    Option (ScopeId × Scopes) :=
  let id := (s.resolve? chain name).getD globalId
  if s.isConst id name then none else some (id, s.declare id name value false)

/-- The innermost scope of a chain that a function or the program opened. -/
def functionScope (s : Scopes) (chain : Chain) : ScopeId :=
  (chain.find? fun id => (s.get? id).any (·.kind != .block)).getD globalId

/-- The function scope that a scope belongs to, after at most `bound` steps to a parent. -/
def ownerWithin (s : Scopes) (id : ScopeId) : Nat → Option ScopeId
  | 0 => none
  | bound + 1 =>
    match s.get? id with
    | none => none
    | some scope =>
      match scope.kind, scope.parent with
      | .function, _ => some scope.id
      | .global, _ => none
      | .block, some parent => s.ownerWithin parent bound
      | .block, none => none

/-- The function scope that a scope belongs to; none at the top level. -/
def owner? (s : Scopes) (id : ScopeId) : Option ScopeId :=
  s.ownerWithin id (s.size + 1)

/-- The scopes of a chain, outermost first. -/
def snapshot (s : Scopes) (chain : Chain) : List Scope :=
  chain.reverse.filterMap s.get?

theorem get?_declare (s : Scopes) (id id' : ScopeId) (name : String)
    (value : Value) (isConst : Bool) :
    (s.declare id name value isConst).get? id' =
      if id = id' then
        (s.get? id').map fun scope =>
          { scope with vars := scope.vars.insert name ⟨value, isConst⟩ }
      else s.get? id' := by
  unfold declare modify get?
  exact Array.getElem?_modify

theorem size_declare (s : Scopes) (id : ScopeId) (name : String) (value : Value)
    (isConst : Bool) : (s.declare id name value isConst).size = s.size :=
  Array.size_modify

theorem get?_openScope (s : Scopes) (kind : ScopeKind) (name : String) (chain : Chain)
    (id : ScopeId) :
    (s.openScope kind name chain).2.get? id =
      if id = s.size then some ⟨s.size, kind, name, .empty, chain.head?⟩ else s.get? id := by
  unfold openScope get? size
  exact Array.getElem?_push

theorem lt_size_of_get? {s : Scopes} {id : ScopeId} {scope : Scope}
    (h : s.get? id = some scope) : id < s.size := by
  unfold get? at h
  obtain ⟨hlt, -⟩ := Array.getElem?_eq_some_iff.1 h
  exact hlt

theorem exists_get?_of_lt {s : Scopes} {id : ScopeId} (h : id < s.size) :
    ∃ scope, s.get? id = some scope :=
  ⟨_, Array.getElem?_eq_getElem h⟩

end Scopes

end ScriptReplay
