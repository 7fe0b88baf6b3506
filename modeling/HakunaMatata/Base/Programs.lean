/-!
# Programs that call something shared

A program is what it does next: it is done, or it makes a call and goes on with the reply. What a
call does to the shared state is not part of the program, so that the same program can be run on its
own or call by call, between the calls of others.
-/

namespace HakunaMatata.Base

/-- A program with calls `κ`, whose replies may be of different types. -/
inductive Program (κ : Type) (ρ : κ → Type) (α : Type) where
  | done (result : α)
  | call (c : κ) (next : ρ c → Program κ ρ α)

namespace Program

variable {κ : Type} {ρ : κ → Type} {α σ : Type} (perform : (c : κ) → σ → ρ c × σ)

/-- The whole program, without others. -/
def run : Program κ ρ α → σ → α × σ
  | .done result, s => (result, s)
  | .call c next, s => run (next (perform c s).1) (perform c s).2

/-- The next call. -/
def advance : Program κ ρ α → σ → Program κ ρ α × σ
  | .done result, s => (.done result, s)
  | .call c next, s => (next (perform c s).1, (perform c s).2)

end Program

end HakunaMatata.Base
