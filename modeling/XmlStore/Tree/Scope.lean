import XmlStore.Tree.Names

/-!
# Namespaces in scope

Which namespace a qualifier stands for while elements are open. A binding lasts as long as the
element that declares it, an inner one hides an outer one, and `xml` is bound once and for all.
Qualifiers and URIs are given by their numbers among the names.
-/

namespace XmlStore

structure Binding where
  qualifier : Nat
  uri : Nat
  depth : Nat
  deriving DecidableEq, Repr

structure Scope where
  /-- The latest binding first. -/
  bindings : List Binding
  xml : Nat
  deriving DecidableEq, Repr

namespace Scope

def xmlUri : Bytes := ascii "http://www.w3.org/XML/1998/namespace"

def initial (names : Names) : Names × Scope :=
  let (xml, names) := names.intern (ascii "xml")
  let (uri, names) := names.intern xmlUri
  (names, { bindings := [⟨xml, uri, 0⟩], xml })

/-- A declaration of `xml` changes nothing. -/
def binds (scope : Scope) (qualifier : Nat) : Bool := qualifier != scope.xml

def declare (scope : Scope) (qualifier uri depth : Nat) : Scope :=
  if scope.binds qualifier then
    { scope with bindings := ⟨qualifier, uri, depth⟩ :: scope.bindings }
  else scope

/-- Drops the latest bindings as long as they were made at this depth or deeper. What is bound
outside all elements stays. -/
def leave (scope : Scope) (depth : Nat) : Scope :=
  { scope with
    bindings := scope.bindings.dropWhile fun b => decide (depth ≤ b.depth ∧ 0 < b.depth) }

/-- The qualifiers and URIs bound at exactly this depth, in the order of their declarations. -/
def declaredAt (scope : Scope) (depth : Nat) : List (Nat × Nat) :=
  let declared := scope.bindings.filter fun b => decide (b.depth = depth ∧ 0 < depth)
  declared.reverse.map fun b => (b.qualifier, b.uri)

def resolve? (scope : Scope) (qualifier : Nat) : Option Nat :=
  (scope.bindings.find? fun b => b.qualifier == qualifier).map (·.uri)

def size (scope : Scope) : Nat := scope.bindings.length

end Scope

end XmlStore
