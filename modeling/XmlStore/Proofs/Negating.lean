import XmlStore.Search.Expression
import Mathlib.Logic.Function.Iterate

/-!
# Negating

A negation asks its source once for each answer and hands that answer on, a hit turned round, the
end and a fault as they are. So negations around negations turn a hit round as often as there are
negations, and nothing else of an answer depends on them.
-/

namespace XmlStore

/-- What a source answers when it is asked: a hit, its end, or a fault. -/
abbrev Answer := Except QueryFault (Option Hit)

/-- What is left of a hit after a number of negations. -/
def Hit.turned (n : Nat) (hit : Hit) : Hit :=
  { hit with negated := if n % 2 = 1 then !hit.negated else hit.negated }

namespace Answer

def flip : Answer → Answer := Except.map (Option.map Hit.flip)

def turned (n : Nat) : Answer → Answer := Except.map (Option.map (Hit.turned n))

end Answer

-- ---------------------------------------------------------------------------
-- Turning a hit round
-- ---------------------------------------------------------------------------

namespace Hit

theorem turned_zero : turned 0 = id := rfl

theorem turned_succ (n : Nat) : turned (n + 1) = flip ∘ turned n := by
  funext hit
  obtain h | h := Nat.mod_two_eq_zero_or_one n
  · have h' : (n + 1) % 2 = 1 := by omega
    simp [turned, flip, h, h']
  · have h' : (n + 1) % 2 = 0 := by omega
    simp [turned, flip, h, h']

end Hit

namespace Answer

theorem turned_zero (answer : Answer) : answer.turned 0 = answer := by
  obtain fault | hit := answer
  · rfl
  · simp [turned, Except.map, Hit.turned_zero]

theorem turned_succ (n : Nat) (answer : Answer) :
    answer.turned (n + 1) = (answer.turned n).flip := by
  obtain fault | hit := answer
  · rfl
  · simp [turned, flip, Except.map, Hit.turned_succ]

end Answer

-- ---------------------------------------------------------------------------
-- Asking a source
-- ---------------------------------------------------------------------------

namespace Source

variable {σ : Type}

/-- The answer to one call, and what the source is then. -/
def pull (source : Source σ) (state : σ) : Answer × σ :=
  match source state with
  | .ok hit state => (.ok hit, state)
  | .error fault state => (.error fault, state)

/-- The answers to a number of calls. Neither the end nor a fault keeps the source from being asked
again. -/
def pulls (source : Source σ) : (calls : Nat) → σ → List Answer × σ
  | 0, state => ([], state)
  | calls + 1, state =>
    let (answer, state) := source.pull state
    let (answers, state) := source.pulls calls state
    (answer :: answers, state)

/-- The source, with a list of the answers that it has given. -/
def logged (source : Source σ) : Source (List Answer × σ) := fun (given, state) =>
  match source state with
  | .ok hit state => .ok hit (given ++ [.ok hit], state)
  | .error fault state => .error fault (given ++ [.error fault], state)

variable {source : Source σ}

theorem pull_negate (state : σ) :
    source.negate.pull state = ((source.pull state).1.flip, (source.pull state).2) := by
  unfold pull negate
  cases source state with
  | ok hit state => rfl
  | error fault state => rfl

theorem pull_negateTimes (n : Nat) (state : σ) :
    (source.negateTimes n).pull state =
      ((source.pull state).1.turned n, (source.pull state).2) := by
  induction n with
  | zero => rw [negateTimes, Answer.turned_zero]
  | succ n ih => rw [negateTimes, pull_negate, ih, Answer.turned_succ]

theorem pulls_negateTimes (n calls : Nat) (state : σ) :
    (source.negateTimes n).pulls calls state =
      ((source.pulls calls state).1.map (·.turned n), (source.pulls calls state).2) := by
  induction calls generalizing state with
  | zero => rfl
  | succ calls ih => simp only [pulls, pull_negateTimes, ih, List.map_cons]

theorem length_pulls (calls : Nat) (state : σ) : (source.pulls calls state).1.length = calls := by
  induction calls generalizing state with
  | zero => rfl
  | succ calls ih => simp only [pulls, List.length_cons, ih]

theorem pull_logged (given : List Answer) (state : σ) :
    source.logged.pull (given, state) =
      ((source.pull state).1, given ++ [(source.pull state).1], (source.pull state).2) := by
  simp only [pull, logged]
  cases source state with
  | ok hit state => rfl
  | error fault state => rfl

theorem pulls_logged (calls : Nat) (given : List Answer) (state : σ) :
    source.logged.pulls calls (given, state) =
      ((source.pulls calls state).1,
        given ++ (source.pulls calls state).1, (source.pulls calls state).2) := by
  induction calls generalizing given state with
  | zero => simp only [pulls, List.append_nil]
  | succ calls ih =>
    simp only [pulls, pull_logged, ih, List.append_assoc, List.singleton_append]

end Source

-- ---------------------------------------------------------------------------
-- Negated expressions
-- ---------------------------------------------------------------------------

namespace Hits

variable {store : Store}

/-- A negation among the hits of an expression is the negation of a source. -/
theorem pull_negation (hits : Hits) :
    (next store).pull hits.negation =
      ((((next store).negate).pull hits).1, (((next store).negate).pull hits).2.negation) := by
  simp only [Source.pull, Source.negate, next]
  cases hits.next store with
  | ok hit hits => rfl
  | error fault hits => rfl

theorem take_succ (fuel : Nat) (hits : Hits) :
    hits.take store (fuel + 1) =
      (((next store).pull hits).1).bind fun hit =>
        hit.elim (.ok []) fun hit =>
          ((((next store).pull hits).2).take store fuel).map (hit :: ·) := by
  simp only [take, Source.pull]
  cases hits.next store with
  | error fault hits => rfl
  | ok hit hits => cases hit <;> rfl

theorem take_negation (fuel : Nat) (hits : Hits) :
    hits.negation.take store fuel = (hits.take store fuel).map (List.map Hit.flip) := by
  induction fuel generalizing hits with
  | zero => rfl
  | succ fuel ih =>
    rw [take_succ, take_succ, pull_negation, Source.pull_negate, ih]
    obtain fault | _ | hit := ((next store).pull hits).1
    · rfl
    · rfl
    · show ((take store fuel _).map _).map _ = ((take store fuel _).map _).map _
      cases take store fuel ((next store).pull hits).2 <;> rfl

end Hits

theorem Database.search_negation (db : Database) (expression : Expression) :
    db.search expression.negation = (db.search expression).map (List.map Hit.flip) := by
  unfold search
  rw [Expression.hits]
  cases expression.hits db with
  | error fault => rfl
  | ok hits => exact hits.take_negation _

theorem Database.search_negations (db : Database) (expression : Expression) (n : Nat) :
    db.search (Expression.negation^[n] expression) =
      (db.search expression).map (List.map (Hit.turned n)) := by
  induction n with
  | zero =>
    rw [Function.iterate_zero_apply, Hit.turned_zero, List.map_id_fun]
    cases db.search expression <;> rfl
  | succ n ih =>
    rw [Function.iterate_succ_apply', search_negation, ih, Hit.turned_succ]
    cases db.search expression with
    | error fault => rfl
    | ok hits => simp [Except.map]

/-- Around any source stand any number of negations, and they are asked any number of times, also
after the end and after a fault. Each answer is the answer of the source to the same call, its hit
turned round if the number of negations is odd; the source has been asked as often as the outermost
negation, and what has become of it does not depend on the negations. A search for a negated
expression fails as the search for the expression does, and finds the same hits in the same order,
turned round in the same way. -/
theorem negations_turn_each_hit_once :
    (∀ (σ : Type) (source : Source σ) (n calls : Nat) (state : σ),
      (source.logged.negateTimes n).pulls calls ([], state) =
        ((source.pulls calls state).1.map (·.turned n), source.pulls calls state) ∧
      (source.pulls calls state).1.length = calls) ∧
    ∀ (db : Database) (expression : Expression) (n : Nat),
      db.search (Expression.negation^[n] expression) =
        (db.search expression).map (List.map (Hit.turned n)) := by
  refine ⟨fun σ source n calls state => ⟨?_, Source.length_pulls calls state⟩,
    Database.search_negations⟩
  rw [Source.pulls_negateTimes, Source.pulls_logged, List.nil_append]

end XmlStore
