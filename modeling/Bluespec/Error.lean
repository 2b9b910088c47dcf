import Bluespec.Reference

namespace Bluespec

inductive Error where
  | packageNotFound (package : String) (searched : List String)
  | unparsed (package reason : String)
  | refused (visitor variant name : String)
  | parametricSynonym (name : String) (arity : Nat)
  | duplicateBinding (scope name : String)
  | noEnclosingScope
  | configuration (reason : String)
  | missingDeclaration (id : DeclId)
  | missingScope (id : ScopeId)
  | circularScopes (id : ScopeId)
  | circularSynonym (name : String)
  | endlessImports (package : String)
deriving DecidableEq, Repr, Inhabited

namespace Error

def renderPaths : List String → String
  | [] => "<empty include path>"
  | paths => ", ".intercalate paths

def message : Error → String
  | packageNotFound package searched =>
    "package '" ++ package ++ "' not found on the include path (searched: " ++
      renderPaths searched ++ ")"
  | unparsed package reason => "failed to parse package '" ++ package ++ "': " ++ reason
  | refused visitor variant name =>
    visitor ++ " visitor cannot accept " ++ variant ++ " declaration '" ++ name ++ "'"
  | parametricSynonym name arity =>
    "type synonym '" ++ name ++ "' has " ++ toString arity ++
      " parameter(s); only arity-0 synonyms can be dereferenced"
  | duplicateBinding scope name => "'" ++ name ++ "' is already bound in scope '" ++ scope ++ "'"
  | noEnclosingScope => "no enclosing scope to leave"
  | configuration reason => "invalid checker configuration: " ++ reason
  | missingDeclaration id => "there is no " ++ id.render
  | missingScope id => "there is no " ++ id.render
  | circularScopes id => "the scopes enclosing " ++ id.render ++ " never end"
  | circularSynonym name => "type synonym '" ++ name ++ "' is defined through itself"
  | endlessImports package => "the imports of package '" ++ package ++ "' never end"

def code : Error → String
  | packageNotFound .. => "bsv::package_not_found"
  | unparsed .. => "bsv::parse"
  | refused .. => "bsv::protocol_violation"
  | parametricSynonym .. => "bsv::synonym_arity"
  | duplicateBinding .. => "bsv::duplicate_binding"
  | noEnclosingScope => "bsv::scope_underflow"
  | configuration _ => "bsv::config"
  | missingDeclaration _ => "bsv::missing_declaration"
  | missingScope _ => "bsv::missing_scope"
  | circularScopes _ => "bsv::circular_scopes"
  | circularSynonym _ => "bsv::circular_synonym"
  | endlessImports _ => "bsv::endless_imports"

end Error

end Bluespec
