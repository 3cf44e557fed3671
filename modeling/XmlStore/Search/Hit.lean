import XmlStore.Database

/-!
# Hits

What a search finds, and what hands hits out one by one. The negation of a search finds the same
nodes and marks each of them the other way round; it does not look for the other nodes.
-/

namespace XmlStore

structure Hit where
  node : Nat
  negated : Bool := false
  positions : List Nat
  /-- The number of matching occurrences. -/
  score : Int
  deriving DecidableEq, Repr

def Hit.flip (hit : Hit) : Hit := { hit with negated := !hit.negated }

/-- Hands out one hit at each call, or nothing at its end. -/
abbrev Source (σ : Type) := σ → EStateM.Result QueryFault σ (Option Hit)

def Source.negate {σ : Type} (source : Source σ) : Source σ := fun state =>
  match source state with
  | .ok hit state => .ok (hit.map Hit.flip) state
  | .error fault state => .error fault state

def Source.negateTimes {σ : Type} (source : Source σ) : Nat → Source σ
  | 0 => source
  | n + 1 => (source.negateTimes n).negate

end XmlStore
